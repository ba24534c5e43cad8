import LexParse.Proofs.Lr.Grounded

/-!
# The construction of the states

The states are found by expanding one after the other, and in the merged construction a state that
has been expanded may grow and be expanded again. What is true of the finished graph does not depend
on the order, nor on how states are told apart: it is an *automaton* of the grammar (`IsAutomaton`).

## What is proved

* `Graph.complete_build`: either construction comes to an end, and leaves an automaton of the
  grammar whose states it tells apart. Every expansion is called for by a kernel that was not
  covered by the states before, and none is called for twice; so the number of grounded sets bounds
  the number of expansions.
-/

namespace LexParse.Lr

open Context

variable {g : Grammar} {method : Method} {G G' : Graph} {K L : ItemSet} {n m : Nat}

namespace Graph

/-- The state of a number. -/
def state (G : Graph) (n : Nat) : State := G.states.getD n default

/-- The kernel of the state of a number. -/
def kernel (G : Graph) (n : Nat) : ItemSet := (G.state n).kernel

/-- The elements of the state of a number. -/
def elements (G : Graph) (n : Nat) : ItemSet := (G.state n).elements

/-- The transitions of the state of a number. -/
def transitions (G : Graph) (n : Nat) : List (Symbol × Nat) := (G.state n).transitions

theorem getElem?_states (hn : n < G.size) : G.states[n]? = some (G.state n) := by
  have hs : G.states[n]? = some G.states[n] := Array.getElem?_eq_getElem hn
  rw [state, Array.getD_eq_getD_getElem?, hs]
  rfl

/-- Only the states of the graph have transitions. -/
theorem lt_size_of_mem_transitions {e : Symbol × Nat} (h : e ∈ G.transitions n) : n < G.size := by
  by_contra hge
  have hnone : G.states[n]? = none := Array.getElem?_eq_none (Nat.not_lt.1 hge)
  rw [transitions, state, Array.getD_eq_getD_getElem?, hnone] at h
  cases h

theorem state_push (s : State) (todo : List Nat) :
    (⟨G.states.push s, todo⟩ : Graph).state n = if n = G.size then s else G.state n := by
  simp only [state, Array.getD_eq_getD_getElem?, Array.getElem?_push, size]
  split <;> rfl

theorem state_modify (f : State → State) (todo : List Nat) (hm : m < G.size) :
    (⟨G.states.modify m f, todo⟩ : Graph).state n = if n = m then f (G.state m) else G.state n := by
  simp only [state, Array.getD_eq_getD_getElem?, Array.getElem?_modify]
  by_cases h : n = m
  · subst h
    rw [getElem?_states hm]
    simp
  · simp [h, Ne.symm h]

/-! ### Telling states apart -/

theorem sameState_iff {a b : ItemSet} : sameState method a b = true ↔
    a.core = b.core ∧ (method = .canonical → a = b) := by
  cases method with
  | canonical =>
    simp only [sameState, beq_iff_eq, forall_const]
    exact ⟨fun h => ⟨h ▸ rfl, h⟩, fun h => h.2⟩
  | merged => simp [sameState]

/-- A state covers a kernel: it has the same items, with at least the same lookaheads. -/
structure Covers (K L : ItemSet) : Prop where
  core : K.core = L.core
  lookaheads : ∀ i a, a ∈ L.lookaheads i → a ∈ K.lookaheads i

theorem Covers.refl (K : ItemSet) : Covers K K := ⟨rfl, fun _ _ h => h⟩

theorem Covers.trans {M : ItemSet} (h : Covers K L) (h' : Covers L M) : Covers K M :=
  ⟨h.core.trans h'.core, fun i a ha => h.lookaheads i a (h'.lookaheads i a ha)⟩

theorem covers_iff (hL : L.Sorted) : Covers K L ↔ K.core = L.core ∧ K.growsBy L = false := by
  rw [hL.growsBy_eq_false_iff]
  constructor
  · rintro ⟨hcore, hlas⟩
    exact ⟨hcore, fun i hi => ⟨hcore ▸ hi, hlas i⟩⟩
  · rintro ⟨hcore, h⟩
    exact ⟨hcore, fun i a ha => (h i (ItemSet.mem_core_of_mem_lookaheads ha)).2 a ha⟩

theorem covers_merge (hK : K.Sorted) (hL : L.Sorted) (hcore : K.core = L.core) :
    Covers (K.merge L) K ∧ Covers (K.merge L) L := by
  have hm : (K.merge L).core = K.core := by
    refine ItemSet.core_eq_of_sorted (hK.merge L) hK fun i => ?_
    rw [ItemSet.mem_core_merge, hcore, or_self]
  exact ⟨⟨hm, fun i a ha => (hK.mem_lookaheads_merge hL).2 (.inl ha)⟩,
    ⟨hm.trans hcore, fun i a ha => (hK.mem_lookaheads_merge hL).2 (.inr ha)⟩⟩

/-- **What requiring a kernel can do.** There is no state of the kernel, and one is made; or there
is one that does not cover it, and it is joined with the kernel; or there is one that does. -/
theorem require_cases (method : Method) (hK : K.Sorted) :
    (∀ m < G.size, sameState method (G.kernel m) K = false) ∧
      G.require method K = (G.size, ⟨G.states.push { kernel := K }, G.size :: G.todo⟩) ∨
    ∃ n < G.size, (G.kernel n).core = K.core ∧
      (method = .merged ∧ ¬ Covers (G.kernel n) K ∧ G.require method K =
          (n, ⟨G.states.modify n fun s => { s with kernel := (G.kernel n).merge K }, n :: G.todo⟩) ∨
        Covers (G.kernel n) K ∧ sameState method (G.kernel n) K = true ∧
          G.require method K = (n, G)) := by
  have hstate : ∀ {m} (hm : m < G.size), G.states[m] = G.state m := fun hm =>
    (Array.getElem?_eq_some_iff.1 (getElem?_states hm)).2
  unfold require
  split
  · rename_i hnone
    refine .inl ⟨fun m hm => ?_, rfl⟩
    have := Array.findIdx?_eq_none_iff.1 hnone G.states[m] (Array.getElem_mem hm)
    rwa [hstate hm] at this
  · rename_i n hsome
    obtain ⟨hn, hp, -⟩ := Array.findIdx?_eq_some_iff_getElem.1 hsome
    rw [hstate hn] at hp
    change sameState method (G.kernel n) K = true at hp
    obtain ⟨hcore, heq⟩ := sameState_iff.1 hp
    refine .inr ⟨n, hn, hcore, ?_⟩
    cases hgrows : (G.kernel n).growsBy K with
    | true =>
      refine .inl ⟨?_, fun hc => ?_, if_pos hgrows⟩
      · cases method with
        | merged => rfl
        | canonical =>
          rw [heq rfl, hK.growsBy_self] at hgrows
          cases hgrows
      · rw [((covers_iff hK).1 hc).2] at hgrows
        cases hgrows
    | false =>
      refine .inr ⟨(covers_iff hK).2 ⟨hcore, hgrows⟩, hp, if_neg fun h => ?_⟩
      exact absurd (hgrows.symm.trans h) Bool.false_ne_true

/-! ### Growing -/

/-- What requiring kernels leaves as it was: states keep their items, and gain lookaheads only when
states are merged; a state that is new or has gained lookaheads is to be expanded. -/
structure Grows (method : Method) (G G' : Graph) : Prop where
  size_le : G.size ≤ G'.size
  covers : ∀ m < G.size, Covers (G'.kernel m) (G.kernel m)
  same : method = .canonical → ∀ m < G.size, G'.kernel m = G.kernel m
  elements : ∀ m < G.size, G'.elements m = G.elements m
  transitions : ∀ m < G.size, G'.transitions m = G.transitions m
  todo : ∀ m ∈ G.todo, m ∈ G'.todo
  changed : ∀ m < G'.size, m ∈ G'.todo ∨ m < G.size ∧ G'.kernel m = G.kernel m

theorem Grows.refl (method : Method) (G : Graph) : Grows method G G :=
  ⟨Nat.le_refl _, fun _ _ => .refl _, fun _ _ _ => rfl, fun _ _ => rfl, fun _ _ => rfl,
    fun _ h => h, fun _ h => .inr ⟨h, rfl⟩⟩

theorem Grows.trans {G'' : Graph} (h : Grows method G G') (h' : Grows method G' G'') :
    Grows method G G'' := by
  have hlt : ∀ m < G.size, m < G'.size := fun m hm => Nat.lt_of_lt_of_le hm h.size_le
  refine ⟨Nat.le_trans h.size_le h'.size_le, fun m hm => ?_, fun hc m hm => ?_, fun m hm => ?_,
    fun m hm => ?_, fun m hm => h'.todo m (h.todo m hm), fun m hm => ?_⟩
  · exact (h'.covers m (hlt m hm)).trans (h.covers m hm)
  · exact (h'.same hc m (hlt m hm)).trans (h.same hc m hm)
  · exact (h'.elements m (hlt m hm)).trans (h.elements m hm)
  · exact (h'.transitions m (hlt m hm)).trans (h.transitions m hm)
  · rcases h'.changed m hm with ht | ⟨hm', heq⟩
    · exact .inl ht
    · rcases h.changed m hm' with ht | ⟨hm'', heq'⟩
      · exact .inl (h'.todo m ht)
      · exact .inr ⟨hm'', heq.trans heq'⟩

theorem Grows.sameState (h : Grows method G G') (hm : m < G.size) :
    sameState method (G'.kernel m) L = sameState method (G.kernel m) L := by
  rw [Bool.eq_iff_iff, sameState_iff, sameState_iff, (h.covers m hm).core]
  refine and_congr_right fun _ => forall_congr' fun hc => ?_
  rw [h.same hc m hm]

theorem grows_push (K : ItemSet) :
    Grows method G ⟨G.states.push { kernel := K }, G.size :: G.todo⟩ := by
  have hstate : ∀ m < G.size,
      (⟨G.states.push { kernel := K }, G.size :: G.todo⟩ : Graph).state m = G.state m :=
    fun m hm => by rw [state_push, if_neg (Nat.ne_of_lt hm)]
  have hkernel : ∀ m < G.size,
      (⟨G.states.push { kernel := K }, G.size :: G.todo⟩ : Graph).kernel m = G.kernel m :=
    fun m hm => congrArg State.kernel (hstate m hm)
  refine ⟨?_, fun m hm => ?_, fun _ m hm => hkernel m hm, fun m hm => ?_, fun m hm => ?_,
    fun m hm => List.mem_cons_of_mem _ hm, fun m hm => ?_⟩
  · simp [size]
  · rw [hkernel m hm]
    exact .refl _
  · exact congrArg State.elements (hstate m hm)
  · exact congrArg State.transitions (hstate m hm)
  · by_cases hlt : m < G.size
    · exact .inr ⟨hlt, hkernel m hlt⟩
    · have : m < G.size + 1 := by simpa [size] using hm
      obtain rfl : m = G.size := by omega
      exact .inl (List.mem_cons_self ..)

theorem grows_merge (hn : n < G.size) (hcovers : Covers L (G.kernel n)) :
    Grows .merged G ⟨G.states.modify n fun s => { s with kernel := L }, n :: G.todo⟩ := by
  have hstate := fun m => state_modify (G := G) (n := m) (fun s => { s with kernel := L })
    (n :: G.todo) hn
  refine ⟨?_, fun m hm => ?_, nofun, fun m hm => ?_, fun m hm => ?_,
    fun m hm => List.mem_cons_of_mem _ hm, fun m hm => ?_⟩
  · simp [size]
  · rw [kernel, hstate]
    by_cases h : m = n
    · subst h
      simpa using hcovers
    · rw [if_neg h]
      exact .refl _
  · rw [Graph.elements, hstate]
    by_cases h : m = n <;> simp [h, Graph.elements]
  · rw [Graph.transitions, hstate]
    by_cases h : m = n <;> simp [h, Graph.transitions]
  · by_cases h : m = n
    · subst h
      exact .inl (List.mem_cons_self ..)
    · refine .inr ⟨by simpa [size] using hm, ?_⟩
      rw [kernel, hstate, if_neg h]
      rfl

/-! ### What the construction keeps -/

/-- What holds of the states whichever of them have been expanded. `H` are the kernels that have
called for an expansion: each is covered by the state it belongs to, so none calls twice. -/
structure Consistent (g : Grammar) (method : Method) (H : List ItemSet) (G : Graph) : Prop where
  pos : 0 < G.size
  first : G.kernel 0 = [(⟨0, 0⟩, ∅)]
  grounded : ∀ m < G.size, Grounded g (G.kernel m)
  later : ∀ m < G.size, 0 < m → ∀ i ∈ (G.kernel m).core, 0 < i.mark
  apart : ∀ m < G.size, ∀ n < G.size,
    Graph.sameState method (G.kernel m) (G.kernel n) = true → m = n
  todo_lt : ∀ m ∈ G.todo, m < G.size
  nodup : H.Nodup
  recorded : ∀ K ∈ H, Grounded g K ∧ ∃ m < G.size, Graph.sameState method (G.kernel m) K = true ∧
    Covers (G.kernel m) K

/-- A kernel that a symbol leads to: it is not empty, and its marks have moved. -/
structure Advanced (g : Grammar) (K : ItemSet) : Prop where
  grounded : Grounded g K
  mark_pos : ∀ i ∈ K.core, 0 < i.mark

/-- The state of a number is that of a kernel and covers it, and it is not the first one. -/
structure Target (method : Method) (G : Graph) (n : Nat) (K : ItemSet) : Prop where
  pos : 0 < n
  lt : n < G.size
  covers : Covers (G.kernel n) K
  same : Graph.sameState method (G.kernel n) K = true

theorem Target.grows (h : Target method G n K) (hG : Grows method G G') : Target method G' n K :=
  ⟨h.pos, Nat.lt_of_lt_of_le h.lt hG.size_le, (hG.covers n h.lt).trans h.covers,
    (hG.sameState h.lt).trans h.same⟩

variable {H : List ItemSet}

/-- The first state keeps its kernel, as kernels with moved marks have other items. -/
theorem Consistent.pos_of_core_eq (h : Consistent g method H G) (hK : Advanced g K)
    (hn : (G.kernel n).core = K.core) : 0 < n := by
  by_contra hz
  obtain rfl : n = 0 := by omega
  rw [h.first] at hn
  have := hK.mark_pos ⟨0, 0⟩ (hn ▸ List.mem_singleton.2 rfl)
  exact absurd this (Nat.lt_irrefl 0)

/-- The kernels recorded stay covered while the states grow. -/
theorem Consistent.recorded_grows (h : Consistent g method H G) (hG : Grows method G G') :
    ∀ K ∈ H, Grounded g K ∧ ∃ m < G'.size, Graph.sameState method (G'.kernel m) K = true ∧
      Covers (G'.kernel m) K := by
  intro K hK
  obtain ⟨hg, m, hm, hsame, hc⟩ := h.recorded K hK
  refine ⟨hg, m, Nat.lt_of_lt_of_le hm hG.size_le, ?_, (hG.covers m hm).trans hc⟩
  rw [hG.sameState hm]
  exact hsame

theorem sameState_comm {a b : ItemSet} :
    Graph.sameState method a b = Graph.sameState method b a := by
  rw [Bool.eq_iff_iff, sameState_iff, sameState_iff, eq_comm (a := a.core), eq_comm (a := a)]

theorem sameState_self (a : ItemSet) : Graph.sameState method a a = true :=
  sameState_iff.2 ⟨rfl, fun _ => rfl⟩

theorem Consistent.push (h : Consistent g method H G) (hK : Advanced g K)
    (hnew : ∀ m < G.size, Graph.sameState method (G.kernel m) K = false) :
    Consistent g method (K :: H) ⟨G.states.push { kernel := K }, G.size :: G.todo⟩ := by
  have hsize : (⟨G.states.push { kernel := K }, G.size :: G.todo⟩ : Graph).size = G.size + 1 := by
    simp [size]
  have hkernel : ∀ m, (⟨G.states.push { kernel := K }, G.size :: G.todo⟩ : Graph).kernel m =
      if m = G.size then K else G.kernel m := by
    intro m
    rw [kernel, state_push]
    split <;> rfl
  have hcases : ∀ m < G.size + 1, m = G.size ∨ m < G.size ∧ m ≠ G.size := fun m hm => by omega
  refine ⟨by omega, ?_, ?_, ?_, ?_, ?_, List.nodup_cons.2 ⟨fun hm => ?_, h.nodup⟩, ?_⟩
  · rw [hkernel, if_neg (Nat.ne_of_lt h.pos), h.first]
  · intro m hm
    rw [hkernel]
    rcases hcases m (hsize ▸ hm) with rfl | ⟨hlt, hne⟩
    · simpa using hK.grounded
    · simpa [hne] using h.grounded m hlt
  · intro m hm hpos
    rw [hkernel]
    rcases hcases m (hsize ▸ hm) with rfl | ⟨hlt, hne⟩
    · simpa using hK.mark_pos
    · simpa [hne] using h.later m hlt hpos
  · intro m hm n hn hsame
    rw [hkernel, hkernel] at hsame
    rcases hcases m (hsize ▸ hm) with rfl | ⟨hlt, hne⟩ <;>
      rcases hcases n (hsize ▸ hn) with rfl | ⟨hlt', hne'⟩
    · rfl
    · rw [if_pos rfl, if_neg hne', sameState_comm, hnew n hlt'] at hsame
      cases hsame
    · rw [if_pos rfl, if_neg hne, hnew m hlt] at hsame
      cases hsame
    · rw [if_neg hne, if_neg hne'] at hsame
      exact h.apart m hlt n hlt' hsame
  · intro m hm
    rw [hsize]
    rcases List.mem_cons.1 hm with rfl | hm
    · omega
    · exact Nat.lt_succ_of_lt (h.todo_lt m hm)
  · obtain ⟨-, m, hlt, hsame, -⟩ := h.recorded K hm
    rw [hnew m hlt] at hsame
    cases hsame
  · intro L hL
    rcases List.mem_cons.1 hL with rfl | hL
    · refine ⟨hK.grounded, G.size, by omega, ?_⟩
      rw [hkernel, if_pos rfl]
      exact ⟨sameState_self _, .refl _⟩
    · exact h.recorded_grows (grows_push K) L hL

theorem Consistent.merge (h : Consistent g .merged H G) (hK : Advanced g K) (hn : n < G.size)
    (hcore : (G.kernel n).core = K.core) (hnew : ¬ Covers (G.kernel n) K) :
    Consistent g .merged (K :: H)
      ⟨G.states.modify n fun s => { s with kernel := (G.kernel n).merge K }, n :: G.todo⟩ := by
  obtain ⟨hold, hcovers⟩ := covers_merge (h.grounded n hn).proper.sorted hK.grounded.proper.sorted
    hcore
  have hgrows := grows_merge hn hold
  have hsize : (⟨G.states.modify n fun s => { s with kernel := (G.kernel n).merge K },
      n :: G.todo⟩ : Graph).size = G.size := by
    simp [size]
  have hkernel : ∀ m, (⟨G.states.modify n fun s => { s with kernel := (G.kernel n).merge K },
      n :: G.todo⟩ : Graph).kernel m = if m = n then (G.kernel n).merge K else G.kernel m := by
    intro m
    rw [kernel, state_modify _ _ hn]
    split <;> rfl
  have hpos : n ≠ 0 := Nat.pos_iff_ne_zero.1 (h.pos_of_core_eq hK hcore)
  refine ⟨hsize ▸ h.pos, ?_, ?_, ?_, ?_, ?_, List.nodup_cons.2 ⟨fun hm => ?_, h.nodup⟩, ?_⟩
  · rw [hkernel, if_neg (Ne.symm hpos), h.first]
  · intro m hm
    rw [hkernel]
    split
    · exact (h.grounded n hn).merge hK.grounded
    · exact h.grounded m (hsize ▸ hm)
  · intro m hm hpos
    rw [(hgrows.covers m (hsize ▸ hm)).core]
    exact h.later m (hsize ▸ hm) hpos
  · intro m hm k hk hsame
    rw [hgrows.sameState (hsize ▸ hm), sameState_comm, hgrows.sameState (hsize ▸ hk)] at hsame
    exact (h.apart k (hsize ▸ hk) m (hsize ▸ hm) hsame).symm
  · intro m hm
    rw [hsize]
    rcases List.mem_cons.1 hm with rfl | hm
    · exact hn
    · exact h.todo_lt m hm
  · -- the kernel was recorded before, so its state, which is this one, covers it
    obtain ⟨-, m, hlt, hsame, hc⟩ := h.recorded K hm
    obtain rfl : m = n := h.apart m hlt n hn (sameState_iff.2 ⟨hc.core.trans hcore.symm, nofun⟩)
    exact hnew hc
  · intro L hL
    rcases List.mem_cons.1 hL with rfl | hL
    · refine ⟨hK.grounded, n, hsize ▸ hn, ?_⟩
      rw [hkernel, if_pos rfl]
      exact ⟨sameState_iff.2 ⟨hcovers.core, nofun⟩, hcovers⟩
    · exact h.recorded_grows hgrows L hL

/-- Requiring kernels: the states grow, and every state that is to be expanded in addition is paid
for by a kernel that is recorded. -/
structure Required (g : Grammar) (method : Method) (H : List ItemSet) (G G' : Graph)
    (H' : List ItemSet) : Prop where
  consistent : Consistent g method H' G'
  grows : Grows method G G'
  paid : G'.todo.length + H.length ≤ G.todo.length + H'.length

theorem Consistent.require (h : Consistent g method H G) (hK : Advanced g K) :
    ∃ H', Required g method H G (G.require method K).2 H' ∧
      Target method (G.require method K).2 (G.require method K).1 K := by
  rcases require_cases method (G := G) hK.grounded.proper.sorted with
    ⟨hnew, heq⟩ | ⟨n, hn, hcore, ⟨rfl, hnew, heq⟩ | ⟨hcovers, hsame, heq⟩⟩
  · rw [heq]
    have hkernel : Graph.kernel ⟨G.states.push { kernel := K }, G.size :: G.todo⟩ G.size = K := by
      rw [kernel, state_push, if_pos rfl]
    refine ⟨K :: H, ⟨h.push hK hnew, grows_push K, ?_⟩, h.pos, ?_, ?_, ?_⟩
    · simp only [List.length_cons]
      omega
    · simp [size]
    · rw [hkernel]
      exact .refl K
    · rw [hkernel]
      exact sameState_self K
  · rw [heq]
    obtain ⟨hold, hcovers⟩ := covers_merge (h.grounded n hn).proper.sorted
      hK.grounded.proper.sorted hcore
    have hkernel : Graph.kernel ⟨G.states.modify n fun s =>
        { s with kernel := (G.kernel n).merge K }, n :: G.todo⟩ n = (G.kernel n).merge K := by
      rw [kernel, state_modify _ _ hn, if_pos rfl]
    refine ⟨K :: H, ⟨h.merge hK hn hcore hnew, grows_merge hn hold, ?_⟩,
      h.pos_of_core_eq hK hcore, ?_, ?_, ?_⟩
    · simp only [List.length_cons]
      omega
    · simpa [size] using hn
    · rw [hkernel]
      exact hcovers
    · rw [hkernel]
      exact sameState_iff.2 ⟨hcovers.core, nofun⟩
  · rw [heq]
    exact ⟨H, ⟨h, .refl _ _, Nat.le_refl _⟩, h.pos_of_core_eq hK hcore, hn, hcovers, hsame⟩

/-- A transition leads to the state of the kernel of its symbol, which covers it. -/
def Matches (method : Method) (G : Graph) (t : Symbol × Nat) (k : Symbol × ItemSet) : Prop :=
  t.1 = k.1 ∧ Target method G t.2 k.2

theorem Matches.grows {t : Symbol × Nat} {k : Symbol × ItemSet} (h : Matches method G t k)
    (hG : Grows method G G') : Matches method G' t k :=
  ⟨h.1, h.2.grows hG⟩

theorem Consistent.requireAll (h : Consistent g method H G) {ks : List (Symbol × ItemSet)}
    (hks : ∀ k ∈ ks, Advanced g k.2) :
    ∃ H', Required g method H G (G.requireAll method ks).2 H' ∧
      List.Forall₂ (Matches method (G.requireAll method ks).2) (G.requireAll method ks).1 ks := by
  induction ks generalizing G H with
  | nil => exact ⟨H, ⟨h, .refl _ _, Nat.le_refl _⟩, .nil⟩
  | cons k rest ih =>
    obtain ⟨H₁, h₁, ht⟩ := h.require (hks k (List.mem_cons_self ..))
    obtain ⟨H₂, h₂, hrest⟩ := ih h₁.consistent fun k hk => hks k (List.mem_cons_of_mem _ hk)
    refine ⟨H₂, ⟨h₂.consistent, h₁.grows.trans h₂.grows, ?_⟩, .cons ⟨rfl, ht.grows h₂.grows⟩ hrest⟩
    have := h₁.paid
    have := h₂.paid
    show (((G.require method k.2).2.requireAll method rest).2.todo).length + _ ≤ _
    omega

/-! ### Expanding -/

/-- The state is finished: its elements are the closure of its kernel, and its transitions lead to
the states of the kernels of their symbols, which cover them. -/
structure Expanded (g : Grammar) (method : Method) (G : Graph) (n : Nat) : Prop where
  elements : G.elements n = (ofGrammar g).closure (G.kernel n)
  transitions : List.Forall₂ (Matches method G) (G.transitions n)
    ((ofGrammar g).gotos (G.elements n))

/-- Each state is finished or to be expanded. -/
def Settled (g : Grammar) (method : Method) (G : Graph) : Prop :=
  ∀ m < G.size, m ∈ G.todo ∨ Expanded g method G m

theorem Expanded.grows (h : Expanded g method G m) (hm : m < G.size) (hG : Grows method G G')
    (hsame : G'.kernel m = G.kernel m) : Expanded g method G' m := by
  refine ⟨?_, ?_⟩
  · rw [hG.elements m hm, hsame, h.elements]
  · rw [hG.transitions m hm, hG.elements m hm]
    exact h.transitions.imp fun t k hk => hk.grows hG

/-- What a symbol leads to from a finished state has moved marks. -/
theorem advanced_of_mem_gotos (hg : g.WellFormed) (hK : Grounded g K)
    {k : Symbol × ItemSet} (hk : k ∈ (ofGrammar g).gotos ((ofGrammar g).closure K)) :
    Advanced g k.2 := by
  have hground := grounded_closure hg hK
  have hgoto : IsGoto (ofGrammar g) _ k.1 k.2 := isGoto_of_mem_gotos hground.proper.sorted hk
  refine ⟨hgoto.grounded hground, fun j hj => ?_⟩
  obtain ⟨i, -, -, -, rfl⟩ := (hgoto.core j).1 hj
  exact Nat.succ_pos _

/-- Nothing of the states' consistency depends on their elements and transitions. -/
theorem Consistent.congr (h : Consistent g method H G) (hsize : G'.size = G.size)
    (hkernel : ∀ m, G'.kernel m = G.kernel m) (htodo : ∀ m ∈ G'.todo, m ∈ G.todo) :
    Consistent g method H G' := by
  refine ⟨hsize ▸ h.pos, hkernel 0 ▸ h.first, fun m hm => ?_, fun m hm => ?_, fun m hm n hn => ?_,
    fun m hm => hsize ▸ h.todo_lt m (htodo m hm), h.nodup, fun K hK => ?_⟩
  · exact hkernel m ▸ h.grounded m (hsize ▸ hm)
  · exact hkernel m ▸ h.later m (hsize ▸ hm)
  · rw [hkernel, hkernel]
    exact h.apart m (hsize ▸ hm) n (hsize ▸ hn)
  · obtain ⟨hK, m, hm, hrest⟩ := h.recorded K hK
    exact ⟨hK, m, hsize ▸ hm, hkernel m ▸ hrest⟩

theorem kernel_finish (hn : n < G.size) (elements : ItemSet) (transitions : List (Symbol × Nat)) :
    Graph.kernel ⟨G.states.modify n fun s => { s with elements, transitions }, G.todo⟩ m =
      G.kernel m := by
  rw [kernel, state_modify _ _ hn]
  split
  · rename_i h
    rw [h]
    rfl
  · rfl

/-- Finishing a state once its successors are there. -/
theorem Settled.finish {todo : List Nat} (h : Settled g method ⟨G.states, n :: todo⟩)
    (hn : n < G.size) (hG : Grows method ⟨G.states, todo⟩ G') {ts : List (Symbol × Nat)}
    (hts : List.Forall₂ (Matches method G') ts
      ((ofGrammar g).gotos ((ofGrammar g).closure (G.kernel n)))) :
    Settled g method ⟨G'.states.modify n fun s =>
      { s with elements := (ofGrammar g).closure (G.kernel n), transitions := ts }, G'.todo⟩ := by
  have hn' : n < G'.size := Nat.lt_of_lt_of_le hn hG.size_le
  have hstate := fun m => state_modify (G := G') (n := m) (fun s =>
    { s with elements := (ofGrammar g).closure (G.kernel n), transitions := ts }) G'.todo hn'
  have hkernel := fun m => kernel_finish (m := m) hn' ((ofGrammar g).closure (G.kernel n)) ts
  have htarget : ∀ t k, Matches method G' t k → Matches method ⟨G'.states.modify n fun s =>
      { s with elements := (ofGrammar g).closure (G.kernel n), transitions := ts }, G'.todo⟩ t k :=
    fun t k hk => ⟨hk.1, hk.2.pos, by simpa [size] using hk.2.lt, hkernel t.2 ▸ hk.2.covers,
      hkernel t.2 ▸ hk.2.same⟩
  intro m hm
  rcases hG.changed m (by simpa [size] using hm) with ht | ⟨hlt, hsame⟩
  · exact .inl ht
  by_cases hmn : m = n
  · subst hmn
    right
    refine ⟨?_, ?_⟩
    · rw [hkernel, hsame, Graph.elements, hstate, if_pos rfl]
      rfl
    · rw [Graph.elements, Graph.transitions, hstate, if_pos rfl]
      exact hts.imp htarget
  · rcases h m hlt with ht | hex
    · exact .inl (hG.todo m ((List.mem_cons.1 ht).resolve_left hmn))
    · right
      have hex' : Expanded g method ⟨G.states, todo⟩ m :=
        ⟨hex.elements, hex.transitions.imp fun _ _ hk =>
          ⟨hk.1, hk.2.pos, hk.2.lt, hk.2.covers, hk.2.same⟩⟩
      have hex' := hex'.grows hlt hG hsame
      refine ⟨?_, ?_⟩
      · rw [hkernel, Graph.elements, hstate, if_neg hmn]
        exact hex'.elements
      · rw [Graph.elements, Graph.transitions, hstate, if_neg hmn]
        exact hex'.transitions.imp htarget

theorem expand_eq (c : Context) : expand c method G n =
    ⟨(G.requireAll method (c.gotos (c.closure (G.kernel n)))).2.states.modify n fun s =>
      { s with
        elements := c.closure (G.kernel n)
        transitions := (G.requireAll method (c.gotos (c.closure (G.kernel n)))).1 },
      (G.requireAll method (c.gotos (c.closure (G.kernel n)))).2.todo⟩ := rfl

/-- Expanding a state keeps the states consistent and settled. -/
theorem Consistent.expand (hg : g.WellFormed) {todo : List Nat}
    (h : Consistent g method H ⟨G.states, n :: todo⟩)
    (hs : Settled g method ⟨G.states, n :: todo⟩) :
    ∃ H', Consistent g method H' (expand (ofGrammar g) method ⟨G.states, todo⟩ n) ∧
      Settled g method (expand (ofGrammar g) method ⟨G.states, todo⟩ n) ∧
      (expand (ofGrammar g) method ⟨G.states, todo⟩ n).todo.length + H.length ≤
        todo.length + H'.length := by
  have hn : n < G.size := h.todo_lt n (List.mem_cons_self ..)
  have hpop : Consistent g method H ⟨G.states, todo⟩ :=
    h.congr rfl (fun _ => rfl) fun m hm => List.mem_cons_of_mem _ hm
  obtain ⟨H', hreq, hts⟩ :=
    hpop.requireAll fun k hk => advanced_of_mem_gotos hg (h.grounded n hn) hk
  have hn' := Nat.lt_of_lt_of_le hn hreq.grows.size_le
  rw [expand_eq]
  refine ⟨H', hreq.consistent.congr ?_ (fun m => kernel_finish hn' _ _) fun m hm => hm,
    hs.finish hn hreq.grows hts, hreq.paid⟩
  simp only [size, Array.size_modify]
  rfl

/-- Expanding states until none is left. -/
theorem Consistent.expandAll (hg : g.WellFormed) {steps : Nat} (h : Consistent g method H G)
    (hs : Settled g method G)
    (hsteps : 2 ^ ((ofGrammar g).itemCount * ((ofGrammar g).terminalCount + 1)) + G.todo.length ≤
      steps + H.length) :
    ∃ H', Consistent g method H' (expandAll (ofGrammar g) method steps G) ∧
      Settled g method (expandAll (ofGrammar g) method steps G) ∧
      (expandAll (ofGrammar g) method steps G).todo = [] := by
  induction steps generalizing G H with
  | zero =>
    have := length_le_of_grounded h.nodup fun K hK => (h.recorded K hK).1
    refine ⟨H, h, hs, List.eq_nil_of_length_eq_zero ?_⟩
    show G.todo.length = 0
    omega
  | succ steps ih =>
    unfold Graph.expandAll
    split
    · rename_i htodo
      exact ⟨H, h, hs, htodo⟩
    · rename_i n todo htodo
      have hG : G = ⟨G.states, n :: todo⟩ := by rw [← htodo]
      rw [hG] at h hs hsteps
      obtain ⟨H', h', hs', hpaid⟩ := h.expand hg hs
      refine ih h' hs' ?_
      simp only [List.length_cons] at hsteps
      omega

end Graph

/-- The graph is an automaton of the grammar: it has a first state for the whole input, its states
are closed, and its transitions lead to states that cover what their symbols lead to. -/
structure IsAutomaton (g : Grammar) (G : Graph) : Prop where
  pos : 0 < G.size
  first : G.kernel 0 = [(⟨0, 0⟩, ∅)]
  grounded : ∀ n < G.size, Grounded g (G.kernel n)
  later : ∀ n < G.size, 0 < n → ∀ i ∈ (G.kernel n).core, 0 < i.mark
  expanded : ∀ n < G.size, Graph.Expanded g .merged G n

namespace Graph

theorem Target.merged (h : Target method G n K) : Target .merged G n K :=
  ⟨h.pos, h.lt, h.covers, sameState_iff.2 ⟨h.covers.core, nofun⟩⟩

theorem Expanded.merged (h : Expanded g method G n) : Expanded g .merged G n :=
  ⟨h.elements, h.transitions.imp fun _ _ hk => ⟨hk.1, hk.2.merged⟩⟩

/-- Nothing is left to be expanded: the states differ, each is finished, and so there is an
automaton of the grammar. -/
structure Complete (g : Grammar) (method : Method) (G : Graph) : Prop where
  automaton : IsAutomaton g G
  apart : ∀ m < G.size, ∀ n < G.size, sameState method (G.kernel m) (G.kernel n) = true → m = n
  expanded : ∀ n < G.size, Expanded g method G n
  todo_eq : G.todo = []

/-- The graph with only the first state. -/
theorem initial_eq (method : Method) : initial method = ⟨#[{ kernel := [(⟨0, 0⟩, ∅)] }], [0]⟩ := by
  simp [initial, require]

theorem size_initial (method : Method) : (initial method).size = 1 := by
  rw [initial_eq]
  rfl

theorem kernel_initial (hm : m < (initial method).size) :
    (initial method).kernel m = [(⟨0, 0⟩, ∅)] := by
  rw [size_initial] at hm
  obtain rfl : m = 0 := by omega
  rw [initial_eq]
  rfl

theorem consistent_initial (g : Grammar) (method : Method) :
    Consistent g method [[(⟨0, 0⟩, ∅)]] (initial method) := by
  have hsize := size_initial method
  have hpos : 0 < (initial method).size := by omega
  refine ⟨hpos, kernel_initial hpos, fun m hm => ?_, fun m hm => ?_, fun m hm n hn _ => ?_,
    fun m hm => ?_, List.nodup_singleton _, fun K hK => ?_⟩
  · rw [kernel_initial hm]
    exact grounded_first g
  · omega
  · omega
  · rw [initial_eq] at hm
    rw [hsize, List.mem_singleton.1 hm]
    exact Nat.one_pos
  · rw [List.mem_singleton.1 hK]
    refine ⟨grounded_first g, 0, hpos, ?_⟩
    rw [kernel_initial hpos]
    exact ⟨sameState_self _, .refl _⟩

theorem settled_initial (g : Grammar) (method : Method) : Settled g method (initial method) := by
  intro m hm
  rw [size_initial] at hm
  obtain rfl : m = 0 := by omega
  left
  rw [initial_eq]
  exact List.mem_singleton.2 rfl

/-- **Either construction comes to an end.** -/
theorem complete_build (hg : g.WellFormed) (method : Method) :
    Complete g method (build (ofGrammar g) method) := by
  obtain ⟨H, h, hs, htodo⟩ := (consistent_initial g method).expandAll hg (settled_initial g method)
    (by rw [initial_eq]; rfl)
  have hexpanded : ∀ n < (build (ofGrammar g) method).size,
      Expanded g method (build (ofGrammar g) method) n := by
    refine fun n hn => (hs n hn).resolve_left fun hm => ?_
    rw [htodo] at hm
    cases hm
  exact ⟨⟨h.pos, h.first, h.grounded, h.later, fun n hn => (hexpanded n hn).merged⟩, h.apart,
    hexpanded, htodo⟩

end Graph

/-- **Either construction ends with an automaton of the grammar.** -/
theorem Graph.isAutomaton_build (hg : g.WellFormed) (method : Method) :
    IsAutomaton g (build (ofGrammar g) method) :=
  (complete_build hg method).automaton

end LexParse.Lr
