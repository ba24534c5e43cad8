import LexParse.Proofs.Automaton.Minimize
import LexParse.Proofs.Automaton.Subset
import LexParse.Proofs.SymbolClasses
import LexParse.Scan.Table

/-!
# What a scan table matches

A scan table is made in five steps: the rules have an automaton over sets of symbols, the symbols
are put into classes, the automaton is made deterministic, its states are numbered, and states that
no input tells apart may be merged. Each step keeps what is matched, and here the steps are put
together.

## What is proved

* `ScanTable.decides_forRules`: the table of some rules decides which of them has a word first.
* `ScanTable.accepting_foldl_transition`: walking the table over a word ends in a state whose entry
  is the first rule that has the word, and there is no entry before a symbol has been read.
-/

namespace LexParse

namespace ScanTable

variable {alphabet : Alphabet} {rules : List ScanRule} {kinds : List TokenKind} {t : ScanTable}
  {w : List Int} {c : Int} {i : Nat}

/-- The table of some rules, with states merged if that is asked for. -/
def forRules (alphabet : Alphabet) (merge : Bool) (rules : List ScanRule)
    (kinds : List TokenKind) : ScanTable :=
  if merge then (ofRules alphabet rules kinds).minimize else ofRules alphabet rules kinds

theorem parts_forRules (alphabet : Alphabet) (merge : Bool) (rules : List ScanRule)
    (kinds : List TokenKind) : (forRules alphabet merge rules kinds).rules = rules ∧
      (forRules alphabet merge rules kinds).kinds = kinds := by
  cases merge <;> exact ⟨rfl, rfl⟩

/-! ### Classes -/

theorem classify_eq_none (h : alphabet.contains c = false) :
    (classesFor alphabet rules).classify c = none := by
  refine if_neg fun hc => ?_
  rw [Alphabet.contains, Bool.and_eq_false_iff] at h
  simp only [decide_eq_false_iff_not] at h
  exact h.elim (fun h => h hc.1) (fun h => h hc.2)

/-- Every symbol has a class, and no edge of the automaton tells the two apart. -/
theorem exists_classify (h : alphabet.contains c = true) (rules : List ScanRule) :
    ∃ cls, (classesFor alphabet rules).classify c = some cls ∧
      (Automaton.Nfa.ofRules (rules.map (·.pattern))).Reads (classesFor alphabet rules) c cls := by
  simp only [Alphabet.contains, Bool.and_eq_true, decide_eq_true_eq] at h
  obtain ⟨cls, hclass, hlt, hsets⟩ := SymbolClasses.exists_classify_ofSets h.1 h.2
  refine ⟨cls, hclass, hlt, fun {s set u} hmove => hsets set ?_⟩
  have hmem := List.mem_map_of_mem (f := fun e : Nat × CharSet × Nat => e.2.1) hmove
  rw [Automaton.Nfa.ofRules, Automaton.Nfa.map_moves, List.flatMap_map] at hmem
  exact hmem

/-- If every letter of a word has a counterpart, the word has a word of counterparts: symbols have
classes, and classes have symbols. -/
theorem exists_counterparts {α β : Type} {R : α → β → Prop} {P : β → Prop} {l : List α}
    (h : ∀ a ∈ l, ∃ b, P b ∧ R a b) : ∃ l', List.Forall₂ R l l' ∧ ∀ b ∈ l', P b := by
  induction l with
  | nil => exact ⟨[], .nil, nofun⟩
  | cons a l ih =>
    obtain ⟨b, hP, hb⟩ := h a (List.mem_cons_self ..)
    obtain ⟨l', hl', hPs⟩ := ih fun c hc => h c (List.mem_cons_of_mem _ hc)
    exact ⟨b :: l', .cons hb hl', List.forall_mem_cons.2 ⟨hP, hPs⟩⟩

/-- A walk over symbols is a walk over their classes. -/
theorem foldl_transition {cs : List Nat} {state : Nat}
    (h : List.Forall₂ (fun c cls => t.classes.classify c = some cls) w cs) :
    w.foldl t.transition state = cs.foldl t.automaton.next state := by
  induction h generalizing state with
  | nil => rfl
  | cons hc _ ih =>
    rw [List.foldl_cons, List.foldl_cons, ih, transition, hc]

/-- The walk over a word of the alphabet is one over classes that tell all that is read apart. -/
theorem exists_walk (rules : List ScanRule) (kinds : List TokenKind)
    (hsymbols : ∀ c ∈ w, alphabet.contains c = true) :
    ∃ cs : List Nat, List.Forall₂ ((Automaton.Nfa.ofRules (rules.map (·.pattern))).Reads
        (classesFor alphabet rules)) w cs ∧
      (∀ cls ∈ cs, cls < (classesFor alphabet rules).count) ∧
      w.foldl (ofRules alphabet rules kinds).transition
          (ofRules alphabet rules kinds).automaton.start =
        cs.foldl (ofRules alphabet rules kinds).automaton.next
          (ofRules alphabet rules kinds).automaton.start := by
  have hclasses : ∀ c ∈ w, ∃ cls < (classesFor alphabet rules).count,
      (classesFor alphabet rules).classify c = some cls ∧
        (Automaton.Nfa.ofRules (rules.map (·.pattern))).Reads (classesFor alphabet rules) c cls :=
    fun c hc => (exists_classify (hsymbols c hc) rules).imp fun _ h => ⟨h.2.1, h⟩
  obtain ⟨cs, hcs, hlt⟩ := exists_counterparts hclasses
  exact ⟨cs, hcs.imp fun _ _ h => h.2, hlt, foldl_transition (hcs.imp fun _ _ h => h.1)⟩

/-! ### What a table decides -/

/-- A table that decides which of some patterns has a word first. From its dead state it never comes
back, and there is nothing to be matched there. -/
structure Decides (t : ScanTable) (alphabet : Alphabet) (patterns : List Regex) : Prop where
  classify_none : ∀ {c}, alphabet.contains c = false → t.classes.classify c = none
  classify_lt : ∀ {c}, alphabet.contains c = true →
    ∃ cls < t.classes.count, t.classes.classify c = some cls
  total : t.automaton.Total t.classes.count
  accepting_dead : t.accepting t.automaton.dead = none
  accepting_start : t.accepting t.automaton.start = none
  accepting_walk : ∀ {w : List Int}, w ≠ [] → (∀ c ∈ w, alphabet.contains c = true) → ∀ i,
    t.accepting (w.foldl t.transition t.automaton.start) = some i ↔ IsFirstRule patterns w i

theorem decides_ofRules (alphabet : Alphabet) (rules : List ScanRule) (kinds : List TokenKind) :
    (ofRules alphabet rules kinds).Decides alphabet (rules.map (·.pattern)) := by
  have hbounded := Automaton.Nfa.bounded_ofRules (rules.map (·.pattern))
  obtain ⟨R, hsim⟩ := Automaton.Nfa.simulates_table hbounded (classesFor alphabet rules)
  constructor
  case classify_none => exact classify_eq_none
  case classify_lt =>
    intro c hc
    obtain ⟨cls, hclass, hreads⟩ := exists_classify hc rules
    exact ⟨cls, hreads.1, hclass⟩
  case total => exact hsim.total_table (Automaton.Nfa.stays_subsets hbounded _)
  case accepting_dead => exact Automaton.Nfa.rule_dead_table hbounded _
  case accepting_start => exact Automaton.Nfa.rule_start_table hbounded _
  case accepting_walk =>
    intro w hw hsymbols i
    obtain ⟨cs, hcs, hlt, hwalk⟩ := exists_walk rules kinds hsymbols
    rw [hwalk, accepting]
    exact (hsim.rule_run hlt).symm ▸ Automaton.Nfa.rule_run_eq_some_iff hw hcs

/-- Merging states keeps what a table decides. -/
theorem Decides.minimize {patterns : List Regex} (h : t.Decides alphabet patterns) :
    t.minimize.Decides alphabet patterns where
  classify_none := h.classify_none
  classify_lt := h.classify_lt
  total := Automaton.Table.total_minimize h.total
  accepting_dead := (Automaton.Table.rule_dead_minimize h.total).trans h.accepting_dead
  accepting_start := by
    have hstart := Automaton.Table.rule_run_minimize h.total (List.forall_mem_nil (· < _))
    exact hstart.trans h.accepting_start
  accepting_walk := by
    intro w hw hsymbols i
    obtain ⟨cs, hcs, hlt⟩ := exists_counterparts fun c hc => h.classify_lt (hsymbols c hc)
    have hsmall : w.foldl t.minimize.transition t.minimize.automaton.start =
        cs.foldl t.minimize.automaton.next t.minimize.automaton.start := foldl_transition hcs
    have hrule : t.minimize.accepting (cs.foldl t.minimize.automaton.next
        t.minimize.automaton.start) = t.accepting (cs.foldl t.automaton.next t.automaton.start) :=
      Automaton.Table.rule_run_minimize h.total hlt
    rw [← h.accepting_walk hw hsymbols i, hsmall, hrule, foldl_transition hcs]

/-- **The table of some rules decides which of them has a word first.** -/
theorem decides_forRules (alphabet : Alphabet) (merge : Bool) (rules : List ScanRule)
    (kinds : List TokenKind) :
    (forRules alphabet merge rules kinds).Decides alphabet (rules.map (·.pattern)) := by
  have hplain := decides_ofRules alphabet rules kinds
  cases merge with
  | false => exact hplain
  | true => exact hplain.minimize

/-! ### Walking the table -/

/-- Without merging, a word that some rule's automaton can read does not lead to the dead state. -/
theorem foldl_transition_ne_dead {s : Nat} (hsymbols : ∀ c ∈ w, alphabet.contains c = true)
    (h : Automaton.Reaches (Automaton.Nfa.ofRules (rules.map (·.pattern))).Step 0 w s) :
    w.foldl (ofRules alphabet rules kinds).transition
        (ofRules alphabet rules kinds).automaton.start ≠
      (ofRules alphabet rules kinds).automaton.dead := by
  obtain ⟨cs, hcs, -, hwalk⟩ := exists_walk rules kinds hsymbols
  rw [hwalk]
  exact Automaton.Nfa.run_ne_dead (Automaton.Nfa.bounded_ofRules _) hcs h

/-- If some rule has a word, there is a first one. -/
theorem exists_isFirstRule {patterns : List Regex} {r : Regex} (hr : r ∈ patterns)
    (hw : r.Accepts w) : ∃ i, IsFirstRule patterns w i := by
  classical
  obtain ⟨j, hj⟩ := List.mem_iff_getElem?.1 hr
  have hex : ∃ (i : Nat) (r : Regex), patterns[i]? = some r ∧ r.Accepts w := ⟨j, r, hj, hw⟩
  exact ⟨Nat.find hex, Nat.find_spec hex, fun k r hk hw => Nat.find_min' hex ⟨r, hk, hw⟩⟩

theorem Decides.accepting_eq_none_iff {patterns : List Regex} (h : t.Decides alphabet patterns)
    (hw : w ≠ []) (hsymbols : ∀ c ∈ w, alphabet.contains c = true) :
    t.accepting (w.foldl t.transition t.automaton.start) = none ↔
      ∀ r ∈ patterns, ¬ r.Accepts w := by
  have hwalk := h.accepting_walk hw hsymbols
  constructor
  · intro hnone r hr hacc
    obtain ⟨i, hi⟩ := exists_isFirstRule hr hacc
    rw [(hwalk i).2 hi] at hnone
    cases hnone
  · intro hno
    refine Option.eq_none_iff_forall_ne_some.2 fun i hi => ?_
    obtain ⟨r, hr, hacc⟩ := ((hwalk i).1 hi).accepts
    exact hno r (List.mem_of_getElem? hr) hacc

/-- **Walking the table over a word ends in a state whose entry is the first rule that has the
word**, and the entry is empty if no rule has it. It is empty at the start, also when a rule has the
empty word. -/
theorem accepting_foldl_transition (alphabet : Alphabet) (merge : Bool) (rules : List ScanRule)
    (kinds : List TokenKind) :
    let t := forRules alphabet merge rules kinds
    let patterns := rules.map (·.pattern)
    (∀ w : List Int, w ≠ [] → (∀ c ∈ w, alphabet.contains c = true) →
      (∀ i, t.accepting (w.foldl t.transition t.automaton.start) = some i ↔
        IsFirstRule patterns w i) ∧
      (t.accepting (w.foldl t.transition t.automaton.start) = none ↔
        ∀ r ∈ patterns, ¬ r.Accepts w)) ∧
    t.accepting ([].foldl t.transition t.automaton.start) = none := by
  have hdecides := decides_forRules alphabet merge rules kinds
  refine ⟨fun w hw hsymbols => ⟨?_, ?_⟩, hdecides.accepting_start⟩
  · exact hdecides.accepting_walk hw hsymbols
  · exact hdecides.accepting_eq_none_iff hw hsymbols

/-- Any number of `a`, also none; or one of `a` and `b`. -/
def repeatOrPick : List ScanRule :=
  [⟨.star (.chars (.ofChar 'a')), .skip, "a*"⟩, ⟨.chars (.range 97 98), .emit "LETTER", "[ab]"⟩]

/-- The letter `b` is left to the second rule, and `a` is not; the empty word is left to none. -/
theorem accepting_repeatOrPick :
    let t := forRules .bytes true repeatOrPick []
    t.accepting ([98].foldl t.transition t.automaton.start) = some 1 ∧
      t.accepting ([97].foldl t.transition t.automaton.start) = some 0 ∧
      t.accepting ([].foldl t.transition t.automaton.start) = none := by
  obtain ⟨hword, hempty⟩ := accepting_foldl_transition .bytes true repeatOrPick []
  refine ⟨((hword [98] (by decide) (by decide)).1 1).2 ⟨⟨_, rfl, .chars (by decide)⟩, ?_⟩,
    ((hword [97] (by decide) (by decide)).1 0).2 ⟨⟨_, rfl, ?_⟩, fun _ _ _ _ => Nat.zero_le _⟩,
    hempty⟩
  · intro j r hr hb
    rcases Nat.eq_zero_or_pos j with rfl | hj
    · cases hr
      obtain hnil | ⟨u, v, huv, hu, -⟩ := Regex.matches_star_iff.1 hb
      · cases hnil
      · obtain ⟨c, hc, rfl⟩ := Regex.matches_chars_iff.1 hu
        obtain ⟨rfl, -⟩ := List.cons.inj huv
        exact absurd hc (by decide)
    · exact hj
  · exact .starSome (.chars (by decide)) .starNone

end ScanTable

end LexParse
