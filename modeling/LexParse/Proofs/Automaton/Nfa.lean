import LexParse.Automaton.Nfa
import LexParse.Regex.Language

/-!
# What nondeterministic automata read

The automaton of an expression reads exactly the words of the expression on its way from the state
it starts in to the state it stops in, and the automaton of a list of rules comes to the state of a
rule on exactly the words of that rule.

The automaton of an expression is part of larger ones. What is proved of it is therefore said of any
set of steps that leaves its states, but for the last one, by its own edges only: on a way out of
them, the last state is passed and a word of the expression is read before (`Fragment.exits`). In a
repetition the way comes back to the first state, so the length of a way is part of the statement.

## What is proved

* `Fragment.exits`: what is read on the way from the first state to the last one is a word.
* `Fragment.reaches_of_accepts`: every word is read on some way.
* `Nfa.reaches_accepting_iff`: the same for a list of rules.
-/

namespace LexParse

/-- A word is in the language of an expression in which references match nothing. -/
abbrev Regex.Accepts (r : Regex) (w : List Int) : Prop := r.Matches (fun _ _ => False) w

/-- The first rule that has a word in its language. -/
structure IsFirstRule (rules : List Regex) (w : List Int) (i : Nat) : Prop where
  accepts : ∃ r, rules[i]? = some r ∧ r.Accepts w
  le : ∀ j r, rules[j]? = some r → r.Accepts w → i ≤ j

namespace Automaton

/-! ### Steps and ways -/

/-- A step along an edge, and what it reads: one symbol or nothing. -/
inductive Step (silent : List (Nat × Nat)) (moves : List (Nat × CharSet × Nat)) :
    Nat → List Int → Nat → Prop where
  /-- Along an edge that reads nothing. -/
  | silent {s t : Nat} : (s, t) ∈ silent → Step silent moves s [] t
  /-- Along an edge that reads a symbol of its set. -/
  | move {s t : Nat} {set : CharSet} {c : Int} : (s, set, t) ∈ moves → c ∈ set →
      Step silent moves s [c] t

section
variable {silent silent' : List (Nat × Nat)} {moves moves' : List (Nat × CharSet × Nat)}
  {s t p q : Nat} {u : List Int}

theorem step_nil_iff : Step [] [] s u t ↔ False := by
  constructor
  · intro h
    cases h <;> contradiction
  · exact False.elim

theorem step_cons_iff : Step ((p, q) :: silent) moves s u t ↔
    (s = p ∧ u = [] ∧ t = q) ∨ Step silent moves s u t := by
  constructor
  · intro h
    cases h with
    | silent h =>
      rcases List.mem_cons.1 h with heq | h
      · cases heq
        exact .inl ⟨rfl, rfl, rfl⟩
      · exact .inr (.silent h)
    | move h hc => exact .inr (.move h hc)
  · rintro (⟨rfl, rfl, rfl⟩ | h)
    · exact .silent (List.mem_cons_self ..)
    · cases h with
      | silent h => exact .silent (List.mem_cons_of_mem _ h)
      | move h hc => exact .move h hc

theorem step_move_iff {set : CharSet} : Step [] [(p, set, q)] s u t ↔
    s = p ∧ t = q ∧ ∃ c ∈ set, u = [c] := by
  constructor
  · intro h
    cases h with
    | silent h => cases h
    | move h hc =>
      cases List.mem_singleton.1 h
      exact ⟨rfl, rfl, _, hc, rfl⟩
  · rintro ⟨rfl, rfl, c, hc, rfl⟩
    exact .move (List.mem_singleton.2 rfl) hc

theorem step_append_iff : Step (silent ++ silent') (moves ++ moves') s u t ↔
    Step silent moves s u t ∨ Step silent' moves' s u t := by
  constructor
  · intro h
    cases h with
    | silent h => exact (List.mem_append.1 h).imp .silent .silent
    | move h hc => exact (List.mem_append.1 h).imp (.move · hc) (.move · hc)
  · rintro (h | h)
    · cases h with
      | silent h => exact .silent (List.mem_append_left _ h)
      | move h hc => exact .move (List.mem_append_left _ h) hc
    · cases h with
      | silent h => exact .silent (List.mem_append_right _ h)
      | move h hc => exact .move (List.mem_append_right _ h) hc

end

/-- A way of a number of steps, and what it reads. -/
inductive Path (R : Nat → List Int → Nat → Prop) : Nat → Nat → List Int → Nat → Prop where
  /-- No step. -/
  | nil {s : Nat} : Path R 0 s [] s
  /-- A step in front of a way. -/
  | cons {k s t z : Nat} {u v : List Int} : R s u t → Path R k t v z →
      Path R (k + 1) s (u ++ v) z

/-- There is a way that reads a word. -/
def Reaches (R : Nat → List Int → Nat → Prop) (s : Nat) (w : List Int) (t : Nat) : Prop :=
  ∃ k, Path R k s w t

section
variable {R R' : Nat → List Int → Nat → Prop} {k s t z : Nat} {u v w : List Int}

/-- A way stays where its steps stay. -/
theorem Path.stays {P : Nat → Prop} (h : Path R k s w t) (hs : P s)
    (hP : ∀ s u t, P s → R s u t → P t) : P t := by
  induction h with
  | nil => exact hs
  | cons hstep _ ih => exact ih (hP _ _ _ hs hstep)

/-- From a state without a step there is no way on. -/
theorem Path.eq_of_no_step (h : Path R k s w t) (hs : ∀ u t, ¬ R s u t) : w = [] ∧ t = s := by
  cases h with
  | nil => exact ⟨rfl, rfl⟩
  | cons hstep _ => exact absurd hstep (hs _ _)

theorem Reaches.refl : Reaches R s [] s := ⟨0, .nil⟩

theorem Reaches.head (hstep : R s u t) (h : Reaches R t v z) : Reaches R s (u ++ v) z := by
  obtain ⟨k, h⟩ := h
  exact ⟨k + 1, .cons hstep h⟩

theorem Reaches.step (hstep : R s u t) : Reaches R s u t := by
  simpa using Reaches.head hstep .refl

theorem Reaches.trans (h : Reaches R s u t) (h' : Reaches R t v z) : Reaches R s (u ++ v) z := by
  obtain ⟨k, h⟩ := h
  induction h with
  | nil => exact h'
  | cons hstep _ ih =>
    rw [List.append_assoc]
    exact .head hstep (ih h')

/-- A step that reads nothing behind a way. -/
theorem Reaches.tail (h : Reaches R s w t) (hstep : R t [] z) : Reaches R s w z := by
  simpa using h.trans (.step hstep)

theorem Reaches.mono (h : Reaches R s w t) (hR : ∀ s u t, R s u t → R' s u t) :
    Reaches R' s w t := by
  obtain ⟨k, h⟩ := h
  induction h with
  | nil => exact .refl
  | cons hstep _ ih => exact .head (hR _ _ _ hstep) ih

end

/-! ### The automaton of an expression -/

namespace Fragment

/-- A step along an edge of the automaton of an expression. -/
abbrev Step (f : Fragment) : Nat → List Int → Nat → Prop := Automaton.Step f.silent f.moves

section
variable {n s t : Nat} {a b : Regex} {u : List Int}

theorem step_empty_iff : (ofRegex n .empty).Step s u t ↔ s = n ∧ u = [] ∧ t = n + 1 :=
  step_cons_iff.trans (or_iff_left step_nil_iff.1)

theorem step_chars_iff {set : CharSet} : (ofRegex n (.chars set)).Step s u t ↔
    s = n ∧ t = n + 1 ∧ ∃ c ∈ set, u = [c] :=
  step_move_iff

theorem step_seq_iff : (ofRegex n (.seq a b)).Step s u t ↔
    (s = (ofRegex n a).stop ∧ u = [] ∧ t = (ofRegex (ofRegex n a).next b).start) ∨
      (ofRegex n a).Step s u t ∨ (ofRegex (ofRegex n a).next b).Step s u t :=
  step_cons_iff.trans (or_congr_right step_append_iff)

theorem step_alt_iff : (ofRegex n (.alt a b)).Step s u t ↔
    (s = n ∧ u = [] ∧ t = (ofRegex (n + 2) a).start) ∨
      (s = n ∧ u = [] ∧ t = (ofRegex (ofRegex (n + 2) a).next b).start) ∨
      (s = (ofRegex (n + 2) a).stop ∧ u = [] ∧ t = n + 1) ∨
      (s = (ofRegex (ofRegex (n + 2) a).next b).stop ∧ u = [] ∧ t = n + 1) ∨
      (ofRegex (n + 2) a).Step s u t ∨ (ofRegex (ofRegex (n + 2) a).next b).Step s u t := by
  refine step_cons_iff.trans (or_congr_right (step_cons_iff.trans (or_congr_right ?_)))
  exact step_cons_iff.trans (or_congr_right (step_cons_iff.trans (or_congr_right step_append_iff)))

theorem step_opt_iff : (ofRegex n (.opt a)).Step s u t ↔
    (s = n ∧ u = [] ∧ t = (ofRegex (n + 2) a).start) ∨ (s = n ∧ u = [] ∧ t = n + 1) ∨
      (s = (ofRegex (n + 2) a).stop ∧ u = [] ∧ t = n + 1) ∨ (ofRegex (n + 2) a).Step s u t :=
  step_cons_iff.trans (or_congr_right (step_cons_iff.trans (or_congr_right step_cons_iff)))

theorem step_star_iff : (ofRegex n (.star a)).Step s u t ↔
    (s = n ∧ u = [] ∧ t = n + 1) ∨ (s = n ∧ u = [] ∧ t = (ofRegex (n + 2) a).start) ∨
      (s = (ofRegex (n + 2) a).stop ∧ u = [] ∧ t = (ofRegex (n + 2) a).start) ∨
      (s = (ofRegex (n + 2) a).stop ∧ u = [] ∧ t = n + 1) ∨ (ofRegex (n + 2) a).Step s u t := by
  refine step_cons_iff.trans (or_congr_right (step_cons_iff.trans (or_congr_right ?_)))
  exact step_cons_iff.trans (or_congr_right step_cons_iff)

end

/-- All states lie from `n` on and before `next`, and no edge leaves the last one. -/
structure Within (n : Nat) (f : Fragment) : Prop where
  start : n ≤ f.start ∧ f.start < f.next
  stop : n ≤ f.stop ∧ f.stop < f.next
  step : ∀ {s u t}, f.Step s u t → (n ≤ s ∧ s < f.next ∧ s ≠ f.stop) ∧ n ≤ t ∧ t < f.next

theorem within_ofRegex (n : Nat) (r : Regex) : Within n (ofRegex n r) := by
  induction r generalizing n with
  | empty =>
    refine ⟨by simp [ofRegex], by simp [ofRegex], fun h => ?_⟩
    obtain ⟨rfl, -, rfl⟩ := step_empty_iff.1 h
    simp [ofRegex]
  | chars set =>
    refine ⟨by simp [ofRegex], by simp [ofRegex], fun h => ?_⟩
    obtain ⟨rfl, rfl, -⟩ := step_chars_iff.1 h
    simp [ofRegex]
  | named name =>
    exact ⟨by simp [ofRegex], by simp [ofRegex], fun h => (step_nil_iff.1 h).elim⟩
  | seq a b iha ihb =>
    obtain ⟨hastart, hastop, hastep⟩ := iha n
    obtain ⟨hbstart, hbstop, hbstep⟩ := ihb (ofRegex n a).next
    refine ⟨by simp only [ofRegex]; omega, by simp only [ofRegex]; omega, fun h => ?_⟩
    simp only [ofRegex]
    rcases step_seq_iff.1 h with ⟨rfl, -, rfl⟩ | h | h
    · omega
    · have := hastep h
      omega
    · have := hbstep h
      omega
  | alt a b iha ihb =>
    obtain ⟨hastart, hastop, hastep⟩ := iha (n + 2)
    obtain ⟨hbstart, hbstop, hbstep⟩ := ihb (ofRegex (n + 2) a).next
    refine ⟨by simp only [ofRegex]; omega, by simp only [ofRegex]; omega, fun h => ?_⟩
    simp only [ofRegex]
    rcases step_alt_iff.1 h with
      ⟨rfl, -, rfl⟩ | ⟨rfl, -, rfl⟩ | ⟨rfl, -, rfl⟩ | ⟨rfl, -, rfl⟩ | h | h
    · omega
    · omega
    · omega
    · omega
    · have := hastep h
      omega
    · have := hbstep h
      omega
  | opt a iha =>
    obtain ⟨hastart, hastop, hastep⟩ := iha (n + 2)
    refine ⟨by simp only [ofRegex]; omega, by simp only [ofRegex]; omega, fun h => ?_⟩
    simp only [ofRegex]
    rcases step_opt_iff.1 h with ⟨rfl, -, rfl⟩ | ⟨rfl, -, rfl⟩ | ⟨rfl, -, rfl⟩ | h
    · omega
    · omega
    · omega
    · have := hastep h
      omega
  | star a iha =>
    obtain ⟨hastart, hastop, hastep⟩ := iha (n + 2)
    refine ⟨by simp only [ofRegex]; omega, by simp only [ofRegex]; omega, fun h => ?_⟩
    simp only [ofRegex]
    rcases step_star_iff.1 h with ⟨rfl, -, rfl⟩ | ⟨rfl, -, rfl⟩ | ⟨rfl, -, rfl⟩ | ⟨rfl, -, rfl⟩ | h
    · omega
    · omega
    · omega
    · omega
    · have := hastep h
      omega

/-- Edges stay among the states, also those of a set without members. -/
theorem lt_next_of_mem_moves {n : Nat} {r : Regex} {e : Nat × CharSet × Nat}
    (h : e ∈ (ofRegex n r).moves) : e.2.2 < (ofRegex n r).next := by
  induction r generalizing n with
  | empty => cases h
  | chars set =>
    rw [List.mem_singleton.1 h]
    exact Nat.lt_succ_self _
  | named name => cases h
  | seq a b iha ihb =>
    have := (within_ofRegex (ofRegex n a).next b).start
    rcases List.mem_append.1 h with h | h
    · exact Nat.lt_trans (iha h) (by simp only [ofRegex]; omega)
    · exact ihb h
  | alt a b iha ihb =>
    have := (within_ofRegex (ofRegex (n + 2) a).next b).start
    rcases List.mem_append.1 h with h | h
    · exact Nat.lt_trans (iha h) (by simp only [ofRegex]; omega)
    · exact ihb h
  | opt a iha => exact iha h
  | star a iha => exact iha h

theorem le_of_mem_moves {n : Nat} {r : Regex} {e : Nat × CharSet × Nat}
    (h : e ∈ (ofRegex n r).moves) : n ≤ e.2.2 := by
  induction r generalizing n with
  | empty => cases h
  | chars set =>
    rw [List.mem_singleton.1 h]
    exact Nat.le_succ n
  | named name => cases h
  | seq a b iha ihb =>
    have := (within_ofRegex n a).start
    rcases List.mem_append.1 h with h | h
    · exact iha h
    · exact Nat.le_trans (by omega) (ihb h)
  | alt a b iha ihb =>
    have := (within_ofRegex (n + 2) a).start
    rcases List.mem_append.1 h with h | h
    · exact Nat.le_trans (Nat.le_add_right n 2) (iha h)
    · exact Nat.le_trans (by omega) (ihb h)
  | opt a iha => exact Nat.le_trans (Nat.le_add_right n 2) (iha h)
  | star a iha => exact Nat.le_trans (Nat.le_add_right n 2) (iha h)

/-- The sets of the edges are those of the expression. -/
theorem map_moves (n : Nat) (r : Regex) : (ofRegex n r).moves.map (·.2.1) = r.charSets := by
  induction r generalizing n with
  | empty => rfl
  | chars set => rfl
  | named name => rfl
  | seq a b iha ihb => simp [ofRegex, Regex.charSets, iha, ihb]
  | alt a b iha ihb => simp [ofRegex, Regex.charSets, iha, ihb]
  | opt a iha => exact iha _
  | star a iha => exact iha _

/-- A state of the automaton other than the last one. -/
def Inner (n : Nat) (f : Fragment) (s : Nat) : Prop := n ≤ s ∧ s < f.next ∧ s ≠ f.stop

/-- Steps leave the states of the automaton, but for the last one, along its own edges only. -/
def Owns (R : Nat → List Int → Nat → Prop) (n : Nat) (f : Fragment) : Prop :=
  ∀ {s u t}, f.Inner n s → R s u t → f.Step s u t

section
variable {R : Nat → List Int → Nat → Prop} {n k z : Nat} {w : List Int}

/-- A way that leaves a state of the automaton begins with one of its edges. -/
theorem Owns.exists_step {f : Fragment} (h : Owns R n f) {s : Nat} (hs : f.Inner n s)
    (hz : ¬ f.Inner n z) (hpath : Path R k s w z) :
    ∃ j u v t, k = j + 1 ∧ w = u ++ v ∧ f.Step s u t ∧ Path R j t v z := by
  cases hpath with
  | nil => exact absurd hs hz
  | cons hstep hrest => exact ⟨_, _, _, _, rfl, rfl, h hs hstep, hrest⟩

/-- On every way out of the automaton of an expression, a word of the expression is read before the
last state is left. -/
def Exits (r : Regex) : Prop :=
  ∀ {R n k w z}, Owns R n (ofRegex n r) → Path R k (ofRegex n r).start w z →
    ¬ (ofRegex n r).Inner n z →
    ∃ j u v, j < k ∧ w = u ++ v ∧ r.Accepts u ∧ Path R j (ofRegex n r).stop v z

theorem exits_empty : Exits .empty := by
  intro R n k w z hR hpath hz
  have hin : (ofRegex n .empty).Inner n n := by simp [Inner, ofRegex]
  obtain ⟨j, u, v, t, rfl, rfl, hstep, hrest⟩ := hR.exists_step hin hz hpath
  obtain ⟨-, rfl, rfl⟩ := step_empty_iff.1 hstep
  exact ⟨j, [], v, Nat.lt_succ_self j, rfl, .empty, hrest⟩

theorem exits_chars (set : CharSet) : Exits (.chars set) := by
  intro R n k w z hR hpath hz
  have hin : (ofRegex n (.chars set)).Inner n n := by simp [Inner, ofRegex]
  obtain ⟨j, u, v, t, rfl, rfl, hstep, hrest⟩ := hR.exists_step hin hz hpath
  obtain ⟨-, rfl, c, hc, rfl⟩ := step_chars_iff.1 hstep
  exact ⟨j, [c], v, Nat.lt_succ_self j, rfl, .chars hc, hrest⟩

theorem exits_named (name : String) : Exits (.named name) := by
  intro R n k w z hR hpath hz
  have hin : (ofRegex n (.named name)).Inner n n := by simp [Inner, ofRegex]
  obtain ⟨j, u, v, t, rfl, rfl, hstep, hrest⟩ := hR.exists_step hin hz hpath
  exact (step_nil_iff.1 hstep).elim

theorem exits_seq {a b : Regex} (iha : Exits a) (ihb : Exits b) : Exits (.seq a b) := by
  intro R n k w z hR hpath hz
  obtain ⟨hastart, hastop, hastep⟩ := within_ofRegex n a
  obtain ⟨hbstart, hbstop, hbstep⟩ := within_ofRegex (ofRegex n a).next b
  have hin : ∀ {s}, (ofRegex n (.seq a b)).Inner n s ↔
      n ≤ s ∧ s < (ofRegex (ofRegex n a).next b).next ∧
        s ≠ (ofRegex (ofRegex n a).next b).stop := Iff.rfl
  have hRa : Owns R n (ofRegex n a) := by
    rintro s u t ⟨hn, hlt, hne⟩ hstep
    rcases step_seq_iff.1 (hR (hin.2 (by omega)) hstep) with ⟨rfl, -⟩ | h | h
    · exact absurd rfl hne
    · exact h
    · have := hbstep h
      omega
  have hRb : Owns R (ofRegex n a).next (ofRegex (ofRegex n a).next b) := by
    rintro s u t ⟨hn, hlt, hne⟩ hstep
    rcases step_seq_iff.1 (hR (hin.2 (by omega)) hstep) with ⟨rfl, -⟩ | h | h
    · omega
    · have := hastep h
      omega
    · exact h
  rw [hin] at hz
  obtain ⟨j, u, v, hj, rfl, hu, hrest⟩ := iha hRa hpath fun ⟨_, _, _⟩ => hz (by omega)
  -- from the last state of the first part there is one edge
  obtain ⟨i, x, y, t, rfl, rfl, hstep, hrest⟩ :=
    hR.exists_step (hin.2 (by omega)) (mt hin.1 hz) hrest
  rcases step_seq_iff.1 hstep with ⟨-, rfl, rfl⟩ | h | h
  · obtain ⟨m, x, y, hm, rfl, hx, hrest⟩ := ihb hRb hrest fun ⟨_, _, _⟩ => hz (by omega)
    exact ⟨m, u ++ x, y, by omega, by simp, .seq hu hx, hrest⟩
  · exact absurd rfl (hastep h).1.2.2
  · have := hbstep h
    omega

theorem exits_alt {a b : Regex} (iha : Exits a) (ihb : Exits b) : Exits (.alt a b) := by
  intro R n k w z hR hpath hz
  obtain ⟨hastart, hastop, hastep⟩ := within_ofRegex (n + 2) a
  obtain ⟨hbstart, hbstop, hbstep⟩ := within_ofRegex (ofRegex (n + 2) a).next b
  have hin : ∀ {s}, (ofRegex n (.alt a b)).Inner n s ↔
      n ≤ s ∧ s < (ofRegex (ofRegex (n + 2) a).next b).next ∧ s ≠ n + 1 := Iff.rfl
  have hRa : Owns R (n + 2) (ofRegex (n + 2) a) := by
    rintro s u t ⟨hn, hlt, hne⟩ hstep
    rcases step_alt_iff.1 (hR (hin.2 (by omega)) hstep) with
      ⟨rfl, -⟩ | ⟨rfl, -⟩ | ⟨rfl, -⟩ | ⟨rfl, -⟩ | h | h
    · omega
    · omega
    · exact absurd rfl hne
    · omega
    · exact h
    · have := hbstep h
      omega
  have hRb : Owns R (ofRegex (n + 2) a).next (ofRegex (ofRegex (n + 2) a).next b) := by
    rintro s u t ⟨hn, hlt, hne⟩ hstep
    rcases step_alt_iff.1 (hR (hin.2 (by omega)) hstep) with
      ⟨rfl, -⟩ | ⟨rfl, -⟩ | ⟨rfl, -⟩ | ⟨rfl, -⟩ | h | h
    · omega
    · omega
    · omega
    · exact absurd rfl hne
    · have := hastep h
      omega
    · exact h
  rw [hin] at hz
  change Path R k n w z at hpath
  obtain ⟨j, u, v, t, rfl, rfl, hstep, hrest⟩ :=
    hR.exists_step (hin.2 (by omega)) (mt hin.1 hz) hpath
  rcases step_alt_iff.1 hstep with
    ⟨-, rfl, rfl⟩ | ⟨-, rfl, rfl⟩ | ⟨h, -⟩ | ⟨h, -⟩ | h | h
  · obtain ⟨i, u, v, hi, rfl, hu, hrest⟩ := iha hRa hrest fun ⟨_, _, _⟩ => hz (by omega)
    obtain ⟨m, x, y, t, rfl, rfl, hstep, hrest⟩ :=
      hR.exists_step (hin.2 (by omega)) (mt hin.1 hz) hrest
    rcases step_alt_iff.1 hstep with ⟨h, -⟩ | ⟨h, -⟩ | ⟨-, rfl, rfl⟩ | ⟨h, -⟩ | h | h
    · omega
    · omega
    · exact ⟨m, u, y, by omega, rfl, .altFirst hu, hrest⟩
    · omega
    · exact absurd rfl (hastep h).1.2.2
    · have := hbstep h
      omega
  · obtain ⟨i, u, v, hi, rfl, hu, hrest⟩ := ihb hRb hrest fun ⟨_, _, _⟩ => hz (by omega)
    obtain ⟨m, x, y, t, rfl, rfl, hstep, hrest⟩ :=
      hR.exists_step (hin.2 (by omega)) (mt hin.1 hz) hrest
    rcases step_alt_iff.1 hstep with ⟨h, -⟩ | ⟨h, -⟩ | ⟨h, -⟩ | ⟨-, rfl, rfl⟩ | h | h
    · omega
    · omega
    · omega
    · exact ⟨m, u, y, by omega, rfl, .altSecond hu, hrest⟩
    · have := hastep h
      omega
    · exact absurd rfl (hbstep h).1.2.2
  · omega
  · omega
  · have := hastep h
    omega
  · have := hbstep h
    omega

theorem exits_opt {a : Regex} (iha : Exits a) : Exits (.opt a) := by
  intro R n k w z hR hpath hz
  obtain ⟨hastart, hastop, hastep⟩ := within_ofRegex (n + 2) a
  have hin : ∀ {s}, (ofRegex n (.opt a)).Inner n s ↔
      n ≤ s ∧ s < (ofRegex (n + 2) a).next ∧ s ≠ n + 1 := Iff.rfl
  have hRa : Owns R (n + 2) (ofRegex (n + 2) a) := by
    rintro s u t ⟨hn, hlt, hne⟩ hstep
    rcases step_opt_iff.1 (hR (hin.2 (by omega)) hstep) with ⟨rfl, -⟩ | ⟨rfl, -⟩ | ⟨rfl, -⟩ | h
    · omega
    · omega
    · exact absurd rfl hne
    · exact h
  rw [hin] at hz
  change Path R k n w z at hpath
  obtain ⟨j, u, v, t, rfl, rfl, hstep, hrest⟩ :=
    hR.exists_step (hin.2 (by omega)) (mt hin.1 hz) hpath
  rcases step_opt_iff.1 hstep with ⟨-, rfl, rfl⟩ | ⟨-, rfl, rfl⟩ | ⟨h, -⟩ | h
  · obtain ⟨i, u, v, hi, rfl, hu, hrest⟩ := iha hRa hrest fun ⟨_, _, _⟩ => hz (by omega)
    obtain ⟨m, x, y, t, rfl, rfl, hstep, hrest⟩ :=
      hR.exists_step (hin.2 (by omega)) (mt hin.1 hz) hrest
    rcases step_opt_iff.1 hstep with ⟨h, -⟩ | ⟨h, -⟩ | ⟨-, rfl, rfl⟩ | h
    · omega
    · omega
    · exact ⟨m, u, y, by omega, rfl, .optSome hu, hrest⟩
    · exact absurd rfl (hastep h).1.2.2
  · exact ⟨j, [], v, Nat.lt_succ_self j, rfl, .optNone, hrest⟩
  · omega
  · have := hastep h
    omega

theorem exits_star {a : Regex} (iha : Exits a) : Exits (.star a) := by
  intro R n k w z hR hpath hz
  obtain ⟨hastart, hastop, hastep⟩ := within_ofRegex (n + 2) a
  have hin : ∀ {s}, (ofRegex n (.star a)).Inner n s ↔
      n ≤ s ∧ s < (ofRegex (n + 2) a).next ∧ s ≠ n + 1 := Iff.rfl
  have hRa : Owns R (n + 2) (ofRegex (n + 2) a) := by
    rintro s u t ⟨hn, hlt, hne⟩ hstep
    rcases step_star_iff.1 (hR (hin.2 (by omega)) hstep) with
      ⟨rfl, -⟩ | ⟨rfl, -⟩ | ⟨rfl, -⟩ | ⟨rfl, -⟩ | h
    · omega
    · omega
    · exact absurd rfl hne
    · exact absurd rfl hne
    · exact h
  rw [hin] at hz
  -- a way from the first state of the body comes back there or goes on to the last state
  have hloop : ∀ k w, Path R k (ofRegex (n + 2) a).start w z →
      ∃ j u v, j < k ∧ w = u ++ v ∧ (Regex.star a).Accepts u ∧ Path R j (n + 1) v z := by
    intro k
    induction k using Nat.strongRecOn with
    | _ k ih =>
      intro w hpath
      obtain ⟨j, u, v, hj, rfl, hu, hrest⟩ := iha hRa hpath fun ⟨_, _, _⟩ => hz (by omega)
      obtain ⟨i, x, y, t, rfl, rfl, hstep, hrest⟩ :=
        hR.exists_step (hin.2 (by omega)) (mt hin.1 hz) hrest
      rcases step_star_iff.1 hstep with
        ⟨h, -⟩ | ⟨h, -⟩ | ⟨-, rfl, rfl⟩ | ⟨-, rfl, rfl⟩ | h
      · omega
      · omega
      · obtain ⟨m, x, y, hm, rfl, hx, hrest⟩ := ih i (by omega) _ hrest
        exact ⟨m, u ++ x, y, by omega, by simp, .starSome hu hx, hrest⟩
      · exact ⟨i, u ++ [], y, by omega, by simp, .starSome hu .starNone, hrest⟩
      · exact absurd rfl (hastep h).1.2.2
  change Path R k n w z at hpath
  obtain ⟨j, u, v, t, rfl, rfl, hstep, hrest⟩ :=
    hR.exists_step (hin.2 (by omega)) (mt hin.1 hz) hpath
  rcases step_star_iff.1 hstep with ⟨-, rfl, rfl⟩ | ⟨-, rfl, rfl⟩ | ⟨h, -⟩ | ⟨h, -⟩ | h
  · exact ⟨j, [], v, Nat.lt_succ_self j, rfl, .starNone, hrest⟩
  · obtain ⟨m, x, y, hm, rfl, hx, hrest⟩ := hloop j _ hrest
    exact ⟨m, x, y, by omega, rfl, hx, hrest⟩
  · omega
  · omega
  · have := hastep h
    omega

/-- **On the way out of an automaton a word of its expression is read.** -/
theorem exits (r : Regex) : Exits r := by
  induction r with
  | empty => exact exits_empty
  | chars set => exact exits_chars set
  | named name => exact exits_named name
  | seq a b iha ihb => exact exits_seq iha ihb
  | alt a b iha ihb => exact exits_alt iha ihb
  | opt a iha => exact exits_opt iha
  | star a iha => exact exits_star iha

/-- **Every word of an expression is read by its automaton.** -/
theorem reaches_of_accepts {r : Regex} (h : r.Accepts w) (n : Nat) :
    Reaches (ofRegex n r).Step (ofRegex n r).start w (ofRegex n r).stop := by
  induction h generalizing n with
  | empty => exact .step (step_empty_iff.2 ⟨rfl, rfl, rfl⟩)
  | chars hc => exact .step (step_chars_iff.2 ⟨rfl, rfl, _, hc, rfl⟩)
  | named h => exact h.elim
  | @seq a b u v _ _ iha ihb =>
    refine .trans ((iha n).mono fun s u t h => step_seq_iff.2 (.inr (.inl h))) ?_
    refine Reaches.head (u := []) (step_seq_iff.2 (.inl ⟨rfl, rfl, rfl⟩)) ?_
    exact (ihb (ofRegex n a).next).mono fun s u t h => step_seq_iff.2 (.inr (.inr h))
  | @altFirst a b w _ iha =>
    have hpart : Reaches (ofRegex n (.alt a b)).Step _ _ _ :=
      (iha (n + 2)).mono fun s u t h => step_alt_iff.2 (by simp [h])
    refine Reaches.head (u := []) (step_alt_iff.2 (.inl ⟨rfl, rfl, rfl⟩)) ?_
    exact hpart.tail (step_alt_iff.2 (.inr (.inr (.inl ⟨rfl, rfl, rfl⟩))))
  | @altSecond a b w _ ihb =>
    have hpart : Reaches (ofRegex n (.alt a b)).Step _ _ _ :=
      (ihb (ofRegex (n + 2) a).next).mono fun s u t h => step_alt_iff.2 (by simp [h])
    refine Reaches.head (u := []) (step_alt_iff.2 (.inr (.inl ⟨rfl, rfl, rfl⟩))) ?_
    exact hpart.tail (step_alt_iff.2 (.inr (.inr (.inr (.inl ⟨rfl, rfl, rfl⟩)))))
  | optNone => exact .step (step_opt_iff.2 (.inr (.inl ⟨rfl, rfl, rfl⟩)))
  | @optSome a w _ iha =>
    have hpart : Reaches (ofRegex n (.opt a)).Step _ _ _ :=
      (iha (n + 2)).mono fun s u t h => step_opt_iff.2 (by simp [h])
    refine Reaches.head (u := []) (step_opt_iff.2 (.inl ⟨rfl, rfl, rfl⟩)) ?_
    exact hpart.tail (step_opt_iff.2 (.inr (.inr (.inl ⟨rfl, rfl, rfl⟩))))
  | starNone => exact .step (step_star_iff.2 (.inl ⟨rfl, rfl, rfl⟩))
  | @starSome a u v _ _ iha ihrest =>
    have hstart := (within_ofRegex (n + 2) a).start
    have hstop := (within_ofRegex (n + 2) a).stop
    have hpart : Reaches (ofRegex n (.star a)).Step _ _ _ :=
      (iha (n + 2)).mono fun s u t h => step_star_iff.2 (by simp [h])
    refine Reaches.head (u := []) (step_star_iff.2 (.inr (.inl ⟨rfl, rfl, rfl⟩))) ?_
    refine hpart.trans ?_
    -- wherever the first state leads, the last state of the body does too
    obtain ⟨k, hrest⟩ := ihrest n
    generalize hz : (ofRegex n (.star a)).stop = z at hrest ⊢
    cases hrest with
    | nil => exact absurd hz (Nat.succ_ne_self n)
    | cons hstep hrest =>
      rcases step_star_iff.1 hstep with ⟨-, rfl, rfl⟩ | ⟨-, rfl, rfl⟩ | ⟨h, -⟩ | ⟨h, -⟩ | h
      · exact .head (step_star_iff.2 (by simp)) ⟨_, hrest⟩
      · exact .head (step_star_iff.2 (by simp)) ⟨_, hrest⟩
      · change n = _ at h
        omega
      · change n = _ at h
        omega
      · have := (within_ofRegex (n + 2) a).step h
        change (n + 2 ≤ n ∧ _) ∧ _ at this
        omega

end

end Fragment

/-! ### The automaton of a list of rules -/

namespace Nfa

/-- A step along an edge of the automaton of some rules. -/
abbrev Step (nfa : Nfa) : Nat → List Int → Nat → Prop := Automaton.Step nfa.silent nfa.moves

variable {n rule s t i : Nat} {r : Regex} {rest : List Regex} {u w : List Int}

theorem step_cons_iff : (ofRulesFrom n rule (r :: rest)).Step s u t ↔
    (s = 0 ∧ u = [] ∧ t = (Fragment.ofRegex n r).start) ∨ (Fragment.ofRegex n r).Step s u t ∨
      (ofRulesFrom (Fragment.ofRegex n r).next (rule + 1) rest).Step s u t :=
  Automaton.step_cons_iff.trans (or_congr_right step_append_iff)

/-- The states of the rules lie from `n` on and before `size`, and only state zero leads to them
from elsewhere, reading nothing. -/
structure Within (n : Nat) (nfa : Nfa) : Prop where
  le_size : n ≤ nfa.size
  step : ∀ {s u t}, nfa.Step s u t → (s = 0 ∧ u = [] ∨ n ≤ s ∧ s < nfa.size) ∧ n ≤ t ∧ t < nfa.size
  accepting : ∀ {s i}, (s, i) ∈ nfa.accepting → n ≤ s ∧ s < nfa.size

theorem within_ofRulesFrom (n rule : Nat) (rules : List Regex) :
    Within n (ofRulesFrom n rule rules) := by
  induction rules generalizing n rule with
  | nil => exact ⟨Nat.le_refl n, fun h => (step_nil_iff.1 h).elim, nofun⟩
  | cons r rest ih =>
    obtain ⟨hstart, hstop, hstep⟩ := Fragment.within_ofRegex n r
    obtain ⟨hsize, hrest, hacc⟩ := ih (Fragment.ofRegex n r).next (rule + 1)
    refine ⟨?_, fun h => ?_, fun h => ?_⟩
    · simp only [ofRulesFrom]
      omega
    · simp only [ofRulesFrom]
      rcases step_cons_iff.1 h with ⟨rfl, rfl, rfl⟩ | h | h
      · exact ⟨.inl ⟨rfl, rfl⟩, by omega⟩
      · have := hstep h
        exact ⟨.inr (by omega), by omega⟩
      · have := hrest h
        exact ⟨this.1.imp_right fun _ => by omega, by omega⟩
    · simp only [ofRulesFrom] at h ⊢
      rcases List.mem_cons.1 h with heq | h
      · cases heq
        omega
      · have := hacc h
        omega

/-- Edges stay among the states, also those of a set without members. -/
theorem lt_size_of_mem_moves {rules : List Regex} {e : Nat × CharSet × Nat}
    (h : e ∈ (ofRulesFrom n rule rules).moves) : e.2.2 < (ofRulesFrom n rule rules).size := by
  induction rules generalizing n rule with
  | nil => cases h
  | cons r rest ih =>
    have := (within_ofRulesFrom (Fragment.ofRegex n r).next (rule + 1) rest).le_size
    rcases List.mem_append.1 h with h | h
    · exact Nat.lt_of_lt_of_le (Fragment.lt_next_of_mem_moves h) this
    · exact ih h

theorem le_of_mem_moves {rules : List Regex} {e : Nat × CharSet × Nat}
    (h : e ∈ (ofRulesFrom n rule rules).moves) : n ≤ e.2.2 := by
  induction rules generalizing n rule with
  | nil => cases h
  | cons r rest ih =>
    have := (Fragment.within_ofRegex n r).start
    rcases List.mem_append.1 h with h | h
    · exact Fragment.le_of_mem_moves h
    · exact Nat.le_trans (by omega) (ih h)

/-- The sets of the edges are those of the rules. -/
theorem map_moves (n rule : Nat) (rules : List Regex) :
    (ofRulesFrom n rule rules).moves.map (·.2.1) = rules.flatMap Regex.charSets := by
  induction rules generalizing n rule with
  | nil => rfl
  | cons r rest ih =>
    rw [ofRulesFrom, List.map_append, Fragment.map_moves, ih, List.flatMap_cons]

/-- The states of the rules are given in their order. -/
theorem map_snd_accepting (n rule : Nat) (rules : List Regex) :
    (ofRulesFrom n rule rules).accepting.map (·.2) = List.range' rule rules.length := by
  induction rules generalizing n rule with
  | nil => rfl
  | cons r rest ih =>
    rw [ofRulesFrom, List.map_cons, ih, List.length_cons, List.range'_succ]

/-- What is read on the way from a first state to the state of a rule is a word of the rule. -/
theorem exists_accepts_of_reaches {R : Nat → List Int → Nat → Prop} {rules : List Regex}
    (hn : 0 < n) (hR : ∀ {s u t}, n ≤ s → R s u t → (ofRulesFrom n rule rules).Step s u t)
    (hfirst : (ofRulesFrom n rule rules).Step 0 u t)
    (hacc : (s, i) ∈ (ofRulesFrom n rule rules).accepting) (hway : Reaches R t w s) :
    ∃ r, rule ≤ i ∧ rules[i - rule]? = some r ∧ r.Accepts w := by
  induction rules generalizing n rule with
  | nil => cases hacc
  | cons r rest ih =>
    obtain ⟨hstart, hstop, hstep⟩ := Fragment.within_ofRegex n r
    obtain ⟨hsize, hrest, haccepting⟩ :=
      within_ofRulesFrom (Fragment.ofRegex n r).next (rule + 1) rest
    obtain ⟨k, hpath⟩ := hway
    -- the states of this rule and those of the others are apart
    have hown : ∀ {s u t}, n ≤ s → s < (Fragment.ofRegex n r).next → R s u t →
        (Fragment.ofRegex n r).Step s u t := by
      intro s u t hs hlt h
      rcases step_cons_iff.1 (hR hs h) with ⟨rfl, -⟩ | h | h
      · omega
      · exact h
      · have := hrest h
        omega
    have hothers : ∀ {s u t}, (Fragment.ofRegex n r).next ≤ s → R s u t →
        (ofRulesFrom (Fragment.ofRegex n r).next (rule + 1) rest).Step s u t := by
      intro s u t hs h
      rcases step_cons_iff.1 (hR (by omega) h) with ⟨rfl, -⟩ | h | h
      · omega
      · have := hstep h
        omega
      · exact h
    rcases step_cons_iff.1 hfirst with ⟨-, rfl, rfl⟩ | h | h
    · -- the way stays within this rule
      have hs : n ≤ s ∧ s < (Fragment.ofRegex n r).next :=
        hpath.stays (P := fun s => n ≤ s ∧ s < (Fragment.ofRegex n r).next) hstart
          fun s u t hs h => (hstep (hown hs.1 hs.2 h)).2
      rcases List.mem_cons.1 hacc with heq | hacc
      · cases heq
        obtain ⟨j, u, v, -, rfl, hu, hlast⟩ := Fragment.exits r
          (fun hs h => hown hs.1 hs.2.1 h) hpath fun h => h.2.2 rfl
        obtain ⟨rfl, -⟩ := hlast.eq_of_no_step fun u t h =>
          (hstep (hown hstop.1 hstop.2 h)).1.2.2 rfl
        refine ⟨r, Nat.le_refl _, by simp, ?_⟩
        rwa [List.append_nil]
      · have := haccepting hacc
        omega
    · have := hstep h
      omega
    · have hs : (Fragment.ofRegex n r).next ≤ s :=
        hpath.stays (P := fun s => (Fragment.ofRegex n r).next ≤ s) (hrest h).2.1
          fun s u t hs h => (hrest (hothers hs h)).2.1
      rcases List.mem_cons.1 hacc with heq | hacc
      · cases heq
        omega
      · obtain ⟨r', hle, hr', hw⟩ := ih (by omega) hothers h hacc
        refine ⟨r', by omega, ?_, hw⟩
        rw [← hr', List.getElem?_cons, if_neg (by omega)]
        congr 1

/-- A word of a rule is read on the way from a first state to the state of the rule. -/
theorem exists_reaches_of_accepts {rules : List Regex} (n rule : Nat) (hr : rules[i]? = some r)
    (hw : r.Accepts w) : ∃ s t, (s, rule + i) ∈ (ofRulesFrom n rule rules).accepting ∧
      (ofRulesFrom n rule rules).Step 0 [] t ∧
      Reaches (ofRulesFrom n rule rules).Step t w s := by
  induction rules generalizing n rule i with
  | nil => cases hr
  | cons r' rest ih =>
    cases i with
    | zero =>
      cases hr
      refine ⟨_, _, List.mem_cons_self .., step_cons_iff.2 (.inl ⟨rfl, rfl, rfl⟩), ?_⟩
      exact (Fragment.reaches_of_accepts hw n).mono fun s u t h => step_cons_iff.2 (.inr (.inl h))
    | succ i =>
      obtain ⟨s, t, hacc, hfirst, hway⟩ := ih (Fragment.ofRegex n r').next (rule + 1) hr
      refine ⟨s, t, List.mem_cons_of_mem _ ?_, step_cons_iff.2 (.inr (.inr hfirst)),
        hway.mono fun s u t h => step_cons_iff.2 (.inr (.inr h))⟩
      rwa [Nat.add_assoc, Nat.add_comm 1 i] at hacc

/-- **The automaton of some rules comes to the state of a rule on its words.** -/
theorem reaches_accepting_iff {rules : List Regex} :
    (∃ s, (s, i) ∈ (ofRules rules).accepting ∧ Reaches (ofRules rules).Step 0 w s) ↔
      ∃ r, rules[i]? = some r ∧ r.Accepts w := by
  obtain ⟨hsize, hstep, haccepting⟩ := within_ofRulesFrom 1 0 rules
  constructor
  · rintro ⟨s, hacc, k, hpath⟩
    cases hpath with
    | nil => exact absurd (haccepting hacc).1 (by decide)
    | cons h hrest =>
      rcases (hstep h).1 with ⟨-, rfl⟩ | ⟨h, -⟩
      · obtain ⟨r, -, hr, hw⟩ := exists_accepts_of_reaches Nat.one_pos (fun _ h => h) h hacc
          ⟨_, hrest⟩
        exact ⟨r, hr, hw⟩
      · exact absurd h (by decide)
  · rintro ⟨r, hr, hw⟩
    obtain ⟨s, t, hacc, hfirst, hway⟩ := exists_reaches_of_accepts 1 0 hr hw
    rw [Nat.zero_add] at hacc
    exact ⟨s, hacc, .head hfirst hway⟩

end Nfa

end Automaton

end LexParse
