import LexParse.Proofs.Lr.Construction

/-!
# What states inherit

Where the lookaheads of a state come from cannot be read off the finished automaton: its transitions
only say that nothing has been lost. It is said by properties that are handed on while the states
are found. The first kernel has such a property, a symbol hands it on to the kernel that it leads
to, and kernels with the same items hand it on to the kernel that joins them.

## What is proved

* `Graph.kernel_build`: every state has every property that is handed on, by either construction.
* `Graph.kernel_build_of_inheritedBy`: by one construction, if it is handed on by that one. Kernels
  are only joined by the merged one.
-/

namespace LexParse.Lr

open Context

/-- A property of kernels that is handed on from state to state. -/
structure Inherited (g : Grammar) (P : ItemSet → Prop) : Prop where
  first : P [(⟨0, 0⟩, ∅)]
  goto : ∀ {K L : ItemSet} {X : Symbol}, Grounded g K → P K →
    (X, L) ∈ (ofGrammar g).gotos ((ofGrammar g).closure K) → P L
  merge : ∀ {K L : ItemSet}, Grounded g K → Grounded g L → K.core = L.core → P K → P L →
    P (K.merge L)

/-- A property of kernels that one construction hands on. -/
structure InheritedBy (g : Grammar) (method : Method) (P : ItemSet → Prop) : Prop where
  first : P [(⟨0, 0⟩, ∅)]
  goto : ∀ {K L : ItemSet} {X : Symbol}, Grounded g K → P K →
    (X, L) ∈ (ofGrammar g).gotos ((ofGrammar g).closure K) → P L
  merge : method = .merged → ∀ {K L : ItemSet}, Grounded g K → Grounded g L → K.core = L.core →
    P K → P L → P (K.merge L)

theorem Inherited.inheritedBy {g : Grammar} {P : ItemSet → Prop} (h : Inherited g P)
    (method : Method) : InheritedBy g method P :=
  ⟨h.first, h.goto, fun _ => h.merge⟩

namespace Graph

variable {g : Grammar} {P : ItemSet → Prop} {method : Method} {G : Graph} {K : ItemSet} {n : Nat}

/-- The states found so far have a property, and only they are to be expanded. -/
structure Throughout (g : Grammar) (P : ItemSet → Prop) (G : Graph) : Prop where
  kernel : ∀ m < G.size, Grounded g (G.kernel m) ∧ P (G.kernel m)
  todo_lt : ∀ m ∈ G.todo, m < G.size

theorem Throughout.require (h : Throughout g P G) (hP : InheritedBy g method P)
    (hK : Grounded g K) (hPK : P K) : Throughout g P (G.require method K).2 ∧
      G.size ≤ (G.require method K).2.size := by
  rcases require_cases method (G := G) hK.proper.sorted with
    ⟨-, heq⟩ | ⟨n, hn, hcore, ⟨hmerged, -, heq⟩ | ⟨-, -, heq⟩⟩
  · -- a new state
    have hsize : (⟨G.states.push { kernel := K }, G.size :: G.todo⟩ : Graph).size = G.size + 1 := by
      simp [size]
    rw [heq]
    dsimp only
    rw [hsize]
    refine ⟨⟨fun m hm => ?_, fun m hm => ?_⟩, by omega⟩
    · rw [Graph.kernel, state_push]
      split
      · exact ⟨hK, hPK⟩
      · exact h.kernel m (by omega)
    · rcases List.mem_cons.1 hm with rfl | hm
      · omega
      · have := h.todo_lt m hm
        omega
  · -- a state that gains lookaheads
    obtain ⟨hground, hPn⟩ := h.kernel n hn
    have hsize : (⟨G.states.modify n fun s => { s with kernel := (G.kernel n).merge K },
        n :: G.todo⟩ : Graph).size = G.size := by
      simp [size]
    rw [heq]
    dsimp only
    rw [hsize]
    refine ⟨⟨fun m hm => ?_, fun m hm => ?_⟩, by omega⟩
    · rw [Graph.kernel, state_modify _ _ hn]
      split
      · exact ⟨hground.merge hK, hP.merge hmerged hground hK hcore hPn hPK⟩
      · exact h.kernel m (by omega)
    · rcases List.mem_cons.1 hm with rfl | hm
      · omega
      · have := h.todo_lt m hm
        omega
  · rw [heq]
    exact ⟨h, Nat.le_refl _⟩

theorem Throughout.requireAll (h : Throughout g P G) (hP : InheritedBy g method P)
    {ks : List (Symbol × ItemSet)} (hks : ∀ k ∈ ks, Grounded g k.2 ∧ P k.2) :
    Throughout g P (G.requireAll method ks).2 ∧ G.size ≤ (G.requireAll method ks).2.size := by
  induction ks generalizing G with
  | nil => exact ⟨h, Nat.le_refl _⟩
  | cons k rest ih =>
    obtain ⟨hK, hPK⟩ := hks k (List.mem_cons_self ..)
    obtain ⟨h₁, hle₁⟩ := h.require hP hK hPK
    obtain ⟨h₂, hle₂⟩ := ih h₁ fun k hk => hks k (List.mem_cons_of_mem _ hk)
    exact ⟨h₂, Nat.le_trans hle₁ hle₂⟩

/-- Expanding a state hands on what it has. -/
theorem Throughout.expand (hg : g.WellFormed) (h : Throughout g P G) (hP : InheritedBy g method P)
    (hn : n < G.size) : Throughout g P (Graph.expand (ofGrammar g) method G n) := by
  obtain ⟨hground, hPn⟩ := h.kernel n hn
  have hclosure := grounded_closure hg hground
  have hkernels : ∀ k ∈ (ofGrammar g).gotos ((ofGrammar g).closure (G.kernel n)),
      Grounded g k.2 ∧ P k.2 := by
    rintro ⟨X, L⟩ hL
    have hgoto := isGoto_of_mem_gotos hclosure.proper.sorted hL
    exact ⟨hgoto.grounded hclosure, hP.goto hground hPn hL⟩
  obtain ⟨h', hle⟩ := h.requireAll hP hkernels
  have hn' := Nat.lt_of_lt_of_le hn hle
  rw [expand_eq]
  refine ⟨fun m hm => ?_, fun m hm => ?_⟩
  · rw [kernel_finish hn']
    exact h'.kernel m (by simpa [size] using hm)
  · simpa [size] using h'.todo_lt m hm

theorem Throughout.expandAll (hg : g.WellFormed) (hP : InheritedBy g method P) (steps : Nat)
    (h : Throughout g P G) : Throughout g P (expandAll (ofGrammar g) method steps G) := by
  induction steps generalizing G with
  | zero => exact h
  | succ steps ih =>
    unfold Graph.expandAll
    split
    · exact h
    · rename_i n todo htodo
      have hn : n < G.size := h.todo_lt n (htodo ▸ List.mem_cons_self ..)
      have hpop : Throughout g P { G with todo } :=
        ⟨h.kernel, fun m hm => h.todo_lt m (htodo ▸ List.mem_cons_of_mem _ hm)⟩
      exact ih (hpop.expand hg hP hn)

/-- **Every state has what its construction hands on.** -/
theorem kernel_build_of_inheritedBy (hg : g.WellFormed) (hP : InheritedBy g method P)
    (hn : n < (build (ofGrammar g) method).size) : P ((build (ofGrammar g) method).kernel n) := by
  have hinitial := consistent_initial g method
  have hstart : Throughout g P (initial method) := by
    refine ⟨fun m hm => ⟨hinitial.grounded m hm, ?_⟩, hinitial.todo_lt⟩
    rw [kernel_initial hm]
    exact hP.first
  exact ((hstart.expandAll hg hP _).kernel n hn).2

/-- **Every state has what is handed on.** -/
theorem kernel_build (hg : g.WellFormed) (hP : Inherited g P) (method : Method)
    (hn : n < (build (ofGrammar g) method).size) : P ((build (ofGrammar g) method).kernel n) :=
  kernel_build_of_inheritedBy hg (hP.inheritedBy method) hn

end Graph

end LexParse.Lr
