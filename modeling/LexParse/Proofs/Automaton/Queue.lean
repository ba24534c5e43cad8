import LexParse.Proofs.Automaton.Machine

/-!
# Tables by way of a queue

The states of a table are numbered when they are found, and their rows come one behind the other. A
state that is found is to wait in a queue until its turn comes, and whatever row is put into the
table then has to be that of its number. Here the queue is kept, and each row is checked before it
is put behind the others: there is no table if one comes out of turn.

The check never fails. The states that have been found are those that have had their turn, in the
order of their rows, and behind them those that wait, in the order of the queue; so the state in
front of the queue has the number of the next row. The dead state has to be added at the end if it
has not been found. Its row is then known without a visit.

## What is proved

* `Machine.serve_eq_some`: serving the queue comes to what visiting the states in the order of their
  numbers comes to.
* `Machine.tabulateFromQueue_eq`: the table is the same.
* `Machine.tabulateFromQueue_of_size_le`: as many steps are enough as the table has rows.
-/

namespace LexParse.Automaton

/-- A table in the making. -/
structure Draft (σ : Type) [BEq σ] [Hashable σ] where
  /-- The states found, and the rows of those that have had their turn. -/
  exploration : Exploration σ
  /-- The states that wait for their turn. -/
  queue : List σ
  /-- The rules of the states that have had their turn. -/
  accepting : Array (Option Nat)

variable {σ : Type} [BEq σ] [LawfulBEq σ] [Hashable σ]

/-- Number a state and put its number into a row. If it is found for the first time, it is put at
the end of the queue. -/
def enqueue (st : (Array Nat × Numbering σ) × List σ) (s : σ) :
    (Array Nat × Numbering σ) × List σ :=
  (Numbering.addNext st.1 s, if (st.1.2.number? s).isNone then st.2 ++ [s] else st.2)

namespace Machine

/-- Take states from the queue until none is left. There is no result if the next row is not that of
the state's number, or if the steps are used up. -/
def serve (m : Machine σ) : Nat → Draft σ → Option (Draft σ)
  | _, ⟨e, [], accepting⟩ => some ⟨e, [], accepting⟩
  | 0, ⟨_, _ :: _, _⟩ => none
  | steps + 1, ⟨e, s :: queue, accepting⟩ =>
    if e.found.number? s = some e.rows.size then
      let ((row, found), queue) := (m.successors s).foldl enqueue ((#[], e.found), queue)
      m.serve steps ⟨⟨found, e.rows.push row⟩, queue, accepting.push (m.rule s)⟩
    else none

/-- The table of a machine, its states numbered from a queue. The dead state comes last if nothing
has led to it, with a row that leads only to itself. -/
def tabulateFromQueue (m : Machine σ) (steps : Nat) : Option Table :=
  (m.serve steps ⟨⟨((∅ : Numbering σ).add m.start).2, #[]⟩, [m.start], #[]⟩).map fun d =>
    match d.exploration.found.number? m.dead with
    | some dead => ⟨d.exploration.rows, d.accepting, 0, dead⟩
    | none =>
      let dead := d.exploration.rows.size
      ⟨d.exploration.rows.push (Array.replicate m.classes dead), d.accepting.push none, 0, dead⟩

end Machine

variable {m : Machine σ} {P : σ → Prop} {limit steps : Nat}

/-! ### The queue -/

/-- A state that is found for the first time is found last, and put last. -/
theorem enqueue_keeps {st : (Array Nat × Numbering σ) × List σ} {served : List σ}
    (h : st.1.2.values.toList = served ++ st.2) (s : σ) :
    (enqueue st s).1.2.values.toList = served ++ (enqueue st s).2 := by
  show (st.1.2.add s).2.values.toList = _
  cases hnum : st.1.2.number? s with
  | some i =>
    rw [Numbering.add_of_number? hnum, enqueue, hnum]
    exact h
  | none =>
    rw [(Numbering.add_of_number?_eq_none hnum).2, enqueue, hnum, Array.toList_push, h]
    simp

/-- The successors of a state get the numbers they would get without a queue, and the states found
stay those that have had their turn and those that wait. -/
theorem foldl_enqueue {st : (Array Nat × Numbering σ) × List σ} {served : List σ}
    (h : st.1.2.values.toList = served ++ st.2) (l : List σ) :
    (l.foldl enqueue st).1 = l.foldl Numbering.addNext st.1 ∧
      (l.foldl enqueue st).1.2.values.toList = served ++ (l.foldl enqueue st).2 := by
  induction l generalizing st with
  | nil => exact ⟨rfl, h⟩
  | cons s l ih => exact ih (enqueue_keeps h s)

/-- The states found are those that have had their turn, in the order of their rows, and those that
wait, in the order of the queue. -/
structure InTurn (m : Machine σ) (d : Draft σ) (served : List σ) : Prop where
  found : d.exploration.found.values.toList = served ++ d.queue
  rows : d.exploration.rows.size = served.length
  accepting : d.accepting.toList = served.map m.rule

namespace InTurn

variable {e : Exploration σ} {s : σ} {queue served : List σ} {accepting : Array (Option Nat)}

omit [LawfulBEq σ] in
/-- The state in front of the queue has the number of the next row. -/
theorem getElem?_found (h : InTurn m ⟨e, s :: queue, accepting⟩ served) :
    e.found.values[e.rows.size]? = some s := by
  have hfound : e.found.values.toList = served ++ s :: queue := h.found
  have hrows : e.rows.size = served.length := h.rows
  rw [← Array.getElem?_toList, hfound, hrows]
  simp

omit [LawfulBEq σ] in
/-- When no state waits, all states that have been found have had their turn. -/
theorem of_nil (h : InTurn m ⟨e, [], accepting⟩ served) :
    e.found.values[e.rows.size]? = none ∧ accepting = e.found.values.map m.rule := by
  have hfound : e.found.values.toList = served := by simpa using h.found
  have hrows : e.rows.size = served.length := h.rows
  refine ⟨?_, Array.toList_inj.1 ?_⟩
  · rw [← Array.getElem?_toList, hfound, hrows]
    simp
  · rw [Array.toList_map, hfound]
    exact h.accepting

/-- **The turn of a state.** It gets its row, and those of its successors that are found for the
first time wait behind the others. -/
theorem visit (h : InTurn m ⟨e, s :: queue, accepting⟩ served) :
    ∃ queue', (m.successors s).foldl enqueue ((#[], e.found), queue) =
        (e.found.addAll (m.successors s), queue') ∧
      InTurn m ⟨m.visit e s, queue', accepting.push (m.rule s)⟩ (served ++ [s]) := by
  have hfound : e.found.values.toList = (served ++ [s]) ++ queue := by
    rw [List.append_assoc]
    exact h.found
  have hrows : e.rows.size = served.length := h.rows
  have haccepting : accepting.toList = served.map m.rule := h.accepting
  obtain ⟨hrow, hwait⟩ :=
    @foldl_enqueue σ _ _ _ ((#[], e.found), queue) _ hfound (m.successors s)
  refine ⟨_, Prod.ext hrow rfl, ?_, ?_, ?_⟩
  · rw [hrow] at hwait
    exact hwait
  · simp [visit_eq, hrows]
  · simp [haccepting]

end InTurn

namespace Machine

/-- **Serving the queue comes to what visiting the states in the order of their numbers comes to**,
if that gives every state its row. No row comes out of turn. -/
theorem serve_eq_some {d : Draft σ} {served : List σ} (h : InTurn m d served)
    (hfull : (m.explore limit d.exploration).rows.size =
      (m.explore limit d.exploration).found.size) (hsteps : limit ≤ steps) :
    m.serve steps d = some ⟨m.explore limit d.exploration, [],
      (m.explore limit d.exploration).found.values.map m.rule⟩ := by
  induction limit generalizing steps d served with
  | zero =>
    obtain ⟨e, queue, accepting⟩ := d
    cases queue with
    | nil => rw [serve, explore, h.of_nil.2]
    | cons s queue =>
      have hlt := (Array.getElem?_eq_some_iff.1 h.getElem?_found).1
      exact absurd hfull (Nat.ne_of_lt hlt)
  | succ limit ih =>
    obtain ⟨e, queue, accepting⟩ := d
    cases queue with
    | nil =>
      obtain ⟨hnone, hrules⟩ := h.of_nil
      rw [serve, explore, hnone, hrules]
    | cons s queue =>
      obtain ⟨steps, rfl⟩ := Nat.exists_eq_add_of_le' (Nat.le_trans (Nat.succ_pos limit) hsteps)
      have hs := h.getElem?_found
      have hvisit : m.explore (limit + 1) e = m.explore limit (m.visit e s) := by
        rw [explore, hs]
      obtain ⟨queue', hfold, hnext⟩ := h.visit
      rw [hvisit] at hfull ⊢
      rw [serve, if_pos (Numbering.number?_eq_some_iff.2 hs), hfold]
      exact ih hnext hfull (Nat.le_of_succ_le_succ hsteps)

/-- The start waits first, and has the number of the first row. -/
theorem inTurn_start (m : Machine σ) :
    InTurn m ⟨⟨((∅ : Numbering σ).add m.start).2, #[]⟩, [m.start], #[]⟩ [] := by
  refine ⟨?_, rfl, rfl⟩
  simp [(Numbering.add_of_number?_eq_none (Numbering.number?_empty m.start)).2,
    Numbering.values_empty]

/-- **The table by way of a queue is the table of the machine.** -/
theorem tabulateFromQueue_eq (hm : m.Stays P) (hlimit : AtMost limit P)
    (hrule : m.rule m.dead = none) (hsteps : limit ≤ steps) :
    m.tabulateFromQueue steps = some (m.tabulate limit) := by
  obtain ⟨-, hfull, hfirst⟩ := explored_reachable hm hlimit
  have hserved := serve_eq_some (inTurn_start m) hfull hsteps
  rw [tabulateFromQueue, hserved]
  unfold tabulate visited
  simp only [Option.map_some]
  generalize m.explore limit _ = e at hfull hfirst
  have hstart : e.found.number? m.start = some 0 := Numbering.number?_eq_some_iff.2 hfirst
  cases hdead : e.found.number? m.dead with
  | some dead => simp [hstart, hdead]
  | none =>
    obtain ⟨-, hvalues⟩ := Numbering.add_of_number?_eq_none hdead
    have hstart' : (e.found.add m.dead).2.number? m.start = some 0 :=
      Numbering.number?_eq_some_iff.2 (Numbering.values_add_of_eq_some m.dead hfirst)
    have hdead' : (e.found.add m.dead).2.number? m.dead = some e.rows.size := by
      rw [Numbering.number?_eq_some_iff, hvalues, hfull, Numbering.size, Array.getElem?_push_size]
    simp [visit_dead hm hfull hdead, hstart', hdead', hvalues, hrule]

/-- The machine stays among the states of its table. -/
theorem stays_found (hm : m.Stays P) (hlimit : AtMost limit P) :
    m.Stays (· ∈ (m.visited limit).found.values) where
  start := (explored_visited hm hlimit).2.2.1
  dead := (explored_visited hm hlimit).2.2.2
  next := by
    intro s c hs hc
    obtain ⟨i, hi⟩ := Array.mem_iff_getElem?.1 hs
    obtain ⟨j, -, hj⟩ := (simulates_tabulate hm hlimit).next hi hc
    exact Array.mem_of_getElem? hj
  next_dead := hm.next_dead

/-- **As many states are taken from the queue as the table has at most**, and no row comes out of
turn. -/
theorem tabulateFromQueue_of_size_le (hm : m.Stays P) (hlimit : AtMost limit P)
    (hrule : m.rule m.dead = none) (hsteps : (m.tabulate limit).size ≤ steps) :
    m.tabulateFromQueue steps = some (m.tabulate limit) := by
  have hsize : (m.tabulate limit).size = (m.visited limit).found.values.toList.length :=
    (explored_visited hm hlimit).2.1
  have hfew : AtMost (m.tabulate limit).size (· ∈ (m.visited limit).found.values) := by
    intro l hl hall
    rw [hsize]
    exact (List.subperm_of_subset hl fun s hs => Array.mem_toList_iff.2 (hall s hs)).length_le
  have hfound := stays_found hm hlimit
  -- with steps for both limits the queue gives both tables
  have hmany := tabulateFromQueue_eq hm hlimit hrule (Nat.le_max_left limit steps)
  have hmany' := tabulateFromQueue_eq hfound hfew hrule
    (Nat.le_trans hsteps (Nat.le_max_right limit steps))
  rw [tabulateFromQueue_eq hfound hfew hrule hsteps, ← hmany, hmany']

end Machine

end LexParse.Automaton
