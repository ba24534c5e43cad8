import LexParse.Proofs.Scan.Lexer
import LexParse.Proofs.Scan.Minimal

/-!
# Scans with merged states

A scan stops in the dead state. When states are merged, all states from which nothing can be matched
any more are merged into the dead one, so a scan may stop earlier than it would without merging.
What it finds is the same, and so is what is handed out, because the text goes up to the mark and
not up to the position.

The two scans are followed side by side: where one is in a state, the other is in the state that it
has been merged into (`ScanTable.Merged`). They stop at the same place, unless the scan without
merging has walked through a hopeless state (`ScanTable.Strays`).

## What is proved

* `ScanTable.Minimal.eq_dead`: among states that are not too many only the dead one is hopeless.
* `Lexer.alike_scan`: a scan with merged states finds the same.
* `Lexer.sameOutcome_search`: a search with merged states has the same outcome, and leaves the same
  buffer behind unless the outcome is that nothing matches.
-/

namespace LexParse

variable {alphabet : Alphabet} {rules : List ScanRule} {patterns : List Regex} {t : ScanTable}
  {i p : Nat} {c : Char} {read : List Char}

section

variable (alphabet : Alphabet) (rules : List ScanRule)

/-- A text has been read further than was needed: nothing that a rule matches begins with the
symbols of some earlier part of it. -/
def Overruns (read : List Char) : Prop :=
  ∃ n, 0 < n ∧ n < read.length ∧ (∀ c ∈ read.take n, alphabet.contains (codeOf c) = true) ∧
    ∀ w : List Int, (∀ c ∈ w, alphabet.contains c = true) → ∀ r ∈ rules,
      ¬ r.pattern.Accepts ((read.take n).map codeOf ++ w)

end

/-! ### States from which nothing can be matched -/

namespace ScanTable

/-- Nothing can be matched from a state. -/
def Hopeless (t : ScanTable) (alphabet : Alphabet) (state : Nat) : Prop :=
  ∀ w : List Int, (∀ c ∈ w, alphabet.contains c = true) →
    t.accepting (w.foldl t.transition state) = none

/-- The walk over a text from a state on comes to a hopeless state before the end of the text. -/
def Strays (t : ScanTable) (alphabet : Alphabet) (state : Nat) (read : List Char) : Prop :=
  ∃ n, 0 < n ∧ n < read.length ∧ (∀ c ∈ read.take n, alphabet.contains (codeOf c) = true) ∧
    t.Hopeless alphabet (((read.take n).map codeOf).foldl t.transition state)

theorem Hopeless.transition (h : t.Hopeless alphabet i) {c : Int}
    (hc : alphabet.contains c = true) : t.Hopeless alphabet (t.transition i c) :=
  fun w hw => h (c :: w) (List.forall_mem_cons.2 ⟨hc, hw⟩)

/-- One character more in front. -/
theorem Strays.cons (hc : alphabet.contains (codeOf c) = true)
    (h : t.Strays alphabet (t.transition i (codeOf c)) read) : t.Strays alphabet i (c :: read) := by
  obtain ⟨n, hpos, hlt, hsymbols, hhopeless⟩ := h
  refine ⟨n + 1, Nat.succ_pos n, Nat.succ_lt_succ hlt, ?_, hhopeless⟩
  exact List.forall_mem_cons.2 ⟨hc, hsymbols⟩

/-- If nothing can be matched after the first character, all behind it is read in vain. -/
theorem strays_of_hopeless (hc : alphabet.contains (codeOf c) = true) (hread : read ≠ [])
    (h : t.Hopeless alphabet (t.transition i (codeOf c))) : t.Strays alphabet i (c :: read) := by
  refine ⟨1, Nat.one_pos, ?_, ?_, h⟩
  · rw [List.length_cons]
    exact Nat.succ_lt_succ (List.length_pos_iff.2 hread)
  · exact List.forall_mem_cons.2 ⟨hc, nofun⟩

/-- A walk from the start that strays has overrun. -/
theorem Decides.overruns (h : t.Decides alphabet (rules.map (·.pattern)))
    (hstrays : t.Strays alphabet t.automaton.start read) : Overruns alphabet rules read := by
  obtain ⟨n, hpos, hlt, hsymbols, hhopeless⟩ := hstrays
  refine ⟨n, hpos, hlt, hsymbols, fun w hw r hr hacc => ?_⟩
  have hword : ((read.take n).map codeOf ++ w) ≠ [] :=
    List.append_ne_nil_of_left_ne_nil (Decides.word_ne_nil hpos (Nat.le_of_lt hlt)) w
  have hall : ∀ c ∈ (read.take n).map codeOf ++ w, alphabet.contains c = true := by
    intro c hc
    rcases List.mem_append.1 hc with hc | hc
    · obtain ⟨d, hd, rfl⟩ := List.mem_map.1 hc
      exact hsymbols d hd
    · exact hw c hc
  have hnone := hhopeless w hw
  rw [← List.foldl_append] at hnone
  exact (h.accepting_eq_none_iff hword hall).1 hnone r.pattern (List.mem_map_of_mem hr) hacc

/-- From the dead state nothing can be matched. -/
theorem Decides.hopeless_dead (h : t.Decides alphabet patterns) :
    t.Hopeless alphabet t.automaton.dead := by
  intro w hw
  obtain ⟨cs, hcs, hlt⟩ := exists_counterparts fun c hc => h.classify_lt (hw c hc)
  rw [foldl_transition hcs, h.total.foldl_dead hlt]
  exact h.accepting_dead

/-- Among the states that are not too many, only the dead one is hopeless. -/
theorem Minimal.eq_dead (h : t.Minimal) (ht : t.Decides alphabet patterns)
    (hsymbol : ∀ cls < t.classes.count, ∃ c, alphabet.contains c = true ∧
      t.classes.classify c = some cls)
    (hstart : ¬ t.Hopeless alphabet t.automaton.start) (hp : p < t.size)
    (hhopeless : t.Hopeless alphabet p) : p = t.automaton.dead := by
  by_contra hne
  have hps : p ≠ t.automaton.start := by
    rintro rfl
    exact hstart hhopeless
  have hds : t.automaton.dead ≠ t.automaton.start := by
    intro heq
    exact hstart (heq ▸ ht.hopeless_dead)
  obtain ⟨cs, hcs, hacc⟩ := h.apart p hp _ ht.total.dead hne hps hds
  obtain ⟨w, hw, hsymbols⟩ := exists_counterparts fun cls hcls => hsymbol cls (hcs cls hcls)
  have hw := hw.flip
  rw [← foldl_transition hw, ← foldl_transition hw, hhopeless w hsymbols,
    ht.hopeless_dead w hsymbols] at hacc
  exact hacc rfl

end ScanTable

/-! ### Merged states -/

/-- A state of the table with merged states that a state has been merged into. -/
def ScanTable.Merged (t : ScanTable) (i p : Nat) : Prop :=
  t.automaton.Merged t.classes.count i p

namespace ScanTable

theorem Decides.merged_start (h : t.Decides alphabet patterns) :
    t.Merged t.automaton.start t.minimize.automaton.start :=
  Automaton.Table.merged_start h.total

/-- What has been merged into one state matches one rule. -/
theorem Merged.accepting_eq (hm : t.Merged i p) (h : t.Decides alphabet patterns) :
    t.minimize.accepting p = t.accepting i :=
  Automaton.Table.Merged.rule_eq h.total hm

/-- Merged states lead to merged states. -/
theorem Merged.next (hm : t.Merged i p) (h : t.Decides alphabet patterns) {cls : Nat}
    (hcls : cls < t.classes.count) : ∃ q, t.minimize.automaton.next? p cls = some q ∧
      t.Merged (t.automaton.next i cls) q :=
  Automaton.Table.Merged.next h.total hm hcls

/-- The dead state has been merged into the dead state. -/
theorem Merged.eq_dead (hm : t.Merged t.automaton.dead p) (h : t.Decides alphabet patterns) :
    p = t.minimize.automaton.dead :=
  Automaton.Table.Merged.eq_of_group_eq hm (Automaton.Table.merged_dead h.total) rfl

/-- What has been merged into the dead state is hopeless. -/
theorem Merged.hopeless (hm : t.Merged i t.minimize.automaton.dead)
    (h : t.Decides alphabet patterns) : t.Hopeless alphabet i := by
  intro w hw
  have hsmall := h.minimize
  obtain ⟨cs, hcs, hlt⟩ := exists_counterparts fun c hc => h.classify_lt (hw c hc)
  have hrun : t.Merged (cs.foldl t.automaton.next i) t.minimize.automaton.dead :=
    hsmall.total.foldl_dead hlt ▸ Automaton.Table.Merged.run h.total hm hlt
  rw [foldl_transition hcs, ← hrun.accepting_eq h]
  exact hsmall.accepting_dead

end ScanTable

/-! ### What a scan reads -/

namespace Buffer

variable {b b' b'' : Buffer}

/-- The text from the position of a buffer up to that of another one. -/
def upTo (b b' : Buffer) : List Char := (b.text.toList.drop b.pos).take (b'.pos - b.pos)

/-- A step reads one character more. -/
theorem upTo_cons {s : Option Nat} (h : b.step = some (s, b')) : ∃ c, s = b.symbol c ∧
    ∀ b'' : Buffer, b'.pos ≤ b''.pos → b.upTo b'' = c :: b'.upTo b'' := by
  obtain ⟨hlt, hpos, -, -, htext⟩ := step_eq_some h
  refine ⟨b.text[b.pos], ?_, fun b'' hle => ?_⟩
  · rw [step, dif_pos hlt] at h
    cases h
    rfl
  · have hdrop : b.text.toList.drop b.pos = b.text[b.pos] :: b'.text.toList.drop b'.pos := by
      rw [htext, hpos, ← Array.getElem_toList, ← List.drop_eq_getElem_cons]
    have hlen : b''.pos - b.pos = b''.pos - b'.pos + 1 := by omega
    rw [upTo, hdrop, hlen, List.take_succ_cons, upTo]

theorem upTo_ne_nil (h : b.pos < b'.pos) (hsize : b'.pos ≤ b.text.size) : b.upTo b' ≠ [] := by
  intro hnil
  have hlen := congrArg List.length hnil
  rw [upTo, List.length_take, List.length_drop, Array.length_toList, List.length_nil] at hlen
  omega

end Buffer

theorem SameRoot.refl (b : Buffer) : SameRoot b b := ⟨rfl, rfl, rfl, rfl, rfl, rfl⟩

theorem SameRoot.symm {b b' : Buffer} (h : SameRoot b b') : SameRoot b' b :=
  ⟨h.text.symm, h.file.symm, h.classes.symm, h.root.symm, h.line.symm, h.lineStart.symm⟩

/-- What is handed out does not depend on how far the scan has read. -/
theorem SameRoot.advance_eq {b b' : Buffer} (h : SameRoot b b') (hmark : b'.mark = b.mark) :
    b'.advance = b.advance ∧ b'.extract = b.extract := by
  cases b
  cases b'
  obtain ⟨rfl, rfl, rfl, rfl, rfl, rfl⟩ := h
  obtain rfl := hmark
  exact ⟨rfl, rfl⟩

theorem SameRoot.current_eq {b b' : Buffer} (h : SameRoot b b') :
    b'.current = b.current ∧ b'.position = b.position := by
  rw [Buffer.current, h.text, h.root, Buffer.position, h.file, h.line, h.root, h.lineStart]
  exact ⟨rfl, rfl⟩

/-- Starting again forgets how far the scan has read. -/
theorem SameRoot.reset_eq {b b' : Buffer} (h : SameRoot b b') : b'.reset = b.reset := by
  cases b
  cases b'
  obtain ⟨rfl, rfl, rfl, -, -, -⟩ := h
  rfl

namespace Lexer

variable {best : Option Nat} {b b' : Buffer}

/-- The table has a next state for a symbol, and a state that has been merged has one too. -/
theorem next_of_symbol (ht : t.Decides alphabet patterns) (hclasses : b.classes = some t.classes)
    (hi : i < t.automaton.size) {cls : Nat} (hcls : some cls = b.symbol c) :
    alphabet.contains (codeOf c) = true ∧
      t.automaton.next? i cls = some (t.transition i (codeOf c)) ∧
      ∀ p, t.Merged i p → ∃ q, t.minimize.automaton.next? p cls = some q ∧
        t.Merged (t.transition i (codeOf c)) q := by
  have hclass : t.classes.classify (codeOf c) = some cls := by
    rw [hcls, Buffer.symbol, hclasses]
  have hcontains : alphabet.contains (codeOf c) = true := by
    refine Bool.of_not_eq_false fun hfalse => ?_
    rw [ht.classify_none hfalse] at hclass
    cases hclass
  obtain ⟨cls', hlt, hclass'⟩ := ht.classify_lt hcontains
  obtain rfl := Option.some.inj (hclass'.symm.trans hclass)
  have htransition : t.transition i (codeOf c) = t.automaton.next i cls' := by
    rw [ScanTable.transition, hclass]
  obtain ⟨j, -, hj⟩ := ht.total.next i hi cls' hlt
  refine ⟨hcontains, ?_, fun p hm => ?_⟩
  · rw [htransition, Automaton.Table.next, hj]
    rfl
  · rw [htransition]
    exact hm.next ht hlt

/-- A scan changes nothing but the mark and the position. -/
theorem sameRoot_scan (t : ScanTable) (i : Nat) (best : Option Nat) (b : Buffer) :
    SameRoot b (scan t i best b).2 := by
  fun_induction scan t i best b with
  | case1 state best b => exact .refl b
  | case2 state best b b' hstep | case3 state best b cls b' hstep
  | case4 state best b cls b' hstep => exact (Buffer.step_reads hstep).1
  | case5 state best b cls b' hstep hs next hnext hdead rule hrule ih =>
    have hmarked : SameRoot b' b'.setMark := ⟨rfl, rfl, rfl, rfl, rfl, rfl⟩
    exact (Buffer.step_reads hstep).1.trans (hmarked.trans ih)
  | case6 state best b cls b' hstep hs next hnext hdead hrule ih =>
    exact (Buffer.step_reads hstep).1.trans ih

/-- A scan only goes on. -/
theorem pos_le_scan (t : ScanTable) (i : Nat) (best : Option Nat) (b : Buffer) :
    b.pos ≤ (scan t i best b).2.pos := by
  fun_induction scan t i best b with
  | case1 => exact Nat.le_refl _
  | case2 state best b b' hstep | case3 state best b cls b' hstep
  | case4 state best b cls b' hstep =>
    have := (Buffer.step_eq_some hstep).2.1
    show b.pos ≤ b'.pos
    omega
  | case5 state best b cls b' hstep hs next hnext hdead rule hrule ih =>
    have := hs.2.1
    rw [Buffer.pos_setMark] at ih
    omega
  | case6 state best b cls b' hstep hs next hnext hdead hrule ih =>
    have := hs.2.1
    omega

/-- From a hopeless state a scan finds nothing more; it may read on. -/
theorem scan_of_hopeless (best : Option Nat) (ht : t.Decides alphabet patterns)
    (hclasses : b.classes = some t.classes) (hi : i < t.automaton.size)
    (h : t.Hopeless alphabet i) :
    (scan t i best b).1 = .ok best ∧ SameRoot b (scan t i best b).2 ∧
      (scan t i best b).2.mark = b.mark ∧
      ((scan t i best b).2 = b ∨ b.pos < (scan t i best b).2.pos) := by
  fun_induction scan t i best b with
  | case1 state best b hend => exact ⟨rfl, .refl b, rfl, .inl rfl⟩
  | case2 state best b b' hstep | case4 state best b cls b' hstep =>
    obtain ⟨hsame, -, hmark, -⟩ := Buffer.step_reads hstep
    have hpos := (Buffer.step_eq_some hstep).2.1
    exact ⟨rfl, hsame, hmark, .inr (by show b.pos < b'.pos; omega)⟩
  | case3 state best b cls b' hstep hs hnone =>
    obtain ⟨c, hcls, -⟩ := Buffer.upTo_cons hstep
    obtain ⟨-, hnext, -⟩ := next_of_symbol ht hclasses hi hcls
    rw [hnext] at hnone
    cases hnone
  | case5 state best b cls b' hstep hs next hnext hdead rule hrule ih =>
    -- a hopeless state does not lead to a match
    obtain ⟨c, hcls, -⟩ := Buffer.upTo_cons hstep
    obtain ⟨hc, hnext', -⟩ := next_of_symbol ht hclasses hi hcls
    obtain rfl := Option.some.inj (hnext'.symm.trans hnext)
    have hnone := h.transition hc [] (List.forall_mem_nil _)
    rw [List.foldl_nil, hrule] at hnone
    cases hnone
  | case6 state best b cls b' hstep hs next hnext hdead hrule ih =>
    obtain ⟨hsame, -, hmark, -⟩ := Buffer.step_reads hstep
    obtain ⟨c, hcls, -⟩ := Buffer.upTo_cons hstep
    obtain ⟨hc, hnext', -⟩ := next_of_symbol ht hclasses hi hcls
    obtain rfl := Option.some.inj (hnext'.symm.trans hnext)
    obtain ⟨hfound, hrest, hmark', hpos⟩ :=
      ih (hsame.classes.trans hclasses) (ht.transition_lt hi _) (h.transition hc)
    have hle := pos_le_scan t (t.transition state (codeOf c)) best b'
    have := hs.2.1
    exact ⟨hfound, hsame.trans hrest, hmark'.trans hmark, .inr (by omega)⟩

theorem scan_of_step_eq_none (h : b.step = none) : scan t i best b = (.ok best, b) := by
  rw [scan]
  split <;> simp_all

theorem scan_of_outside (h : b.step = some (none, b')) : scan t i best b = (.ok best, b') := by
  rw [scan]
  split <;> simp_all

theorem scan_of_step {cls j : Nat} (h : b.step = some (some cls, b'))
    (hnext : t.automaton.next? i cls = some j) : scan t i best b =
      if j = t.automaton.dead then (.ok best, b')
      else match t.accepting j with
        | some rule => scan t j (some rule) b'.setMark
        | none => scan t j best b' := by
  rw [scan]
  split
  · simp_all
  · simp_all
  · rename_i hstep
    obtain ⟨rfl, rfl⟩ : _ = cls ∧ _ = b' := by simpa using hstep.symm.trans h
    split
    · rename_i hnone
      rw [hnext] at hnone
      cases hnone
    · rename_i next hnext'
      obtain rfl := Option.some.inj (hnext.symm.trans hnext')
      rfl

/-- How a scan goes on with a symbol. -/
theorem scan_of_char (ht : t.Decides alphabet patterns) (hclasses : b.classes = some t.classes)
    (hi : i < t.automaton.size) (hc : alphabet.contains (codeOf c) = true)
    (hstep : b.step = some (b.symbol c, b')) : scan t i best b =
      if t.transition i (codeOf c) = t.automaton.dead then (.ok best, b')
      else match t.accepting (t.transition i (codeOf c)) with
        | some rule => scan t (t.transition i (codeOf c)) (some rule) b'.setMark
        | none => scan t (t.transition i (codeOf c)) best b' := by
  obtain ⟨cls, -, hclass⟩ := ht.classify_lt hc
  have hsymbol : b.symbol c = some cls := by
    rw [Buffer.symbol, hclasses, ← hclass]
  rw [hsymbol] at hstep
  exact scan_of_step hstep (next_of_symbol ht hclasses hi hsymbol.symm).2.1

/-- Two scans find the same. They stop at the same place, unless the first one reads on for
nothing. -/
structure Alike (inVain : Prop) (s s' : Found × Buffer) : Prop where
  found : ∃ best, s.1 = .ok best ∧ s'.1 = .ok best
  sameRoot : SameRoot s.2 s'.2
  mark : s'.2.mark = s.2.mark
  stops : s'.2 = s.2 ∨ inVain

theorem Alike.imp {P Q : Prop} {s s' : Found × Buffer} (h : Alike P s s') (hPQ : P → Q) :
    Alike Q s s' :=
  ⟨h.found, h.sameRoot, h.mark, h.stops.imp_right hPQ⟩

/-- **A scan with merged states finds the same**, and it stops at the same place unless the scan
without merging goes on from a state where it is hopeless. -/
theorem alike_scan (best : Option Nat) (ht : t.Decides alphabet patterns)
    (hclasses : b.classes = some t.classes) (h : t.Merged i p) :
    Alike (t.Strays alphabet i (b.upTo (scan t i best b).2)) (scan t i best b)
      (scan t.minimize p best b) := by
  fun_induction scan t i best b generalizing p with
  | case1 state best b hend =>
    rw [scan_of_step_eq_none hend]
    exact ⟨⟨best, rfl, rfl⟩, .refl b, rfl, .inl rfl⟩
  | case2 state best b b' hstep =>
    rw [scan_of_outside hstep]
    exact ⟨⟨best, rfl, rfl⟩, .refl b', rfl, .inl rfl⟩
  | case3 state best b cls b' hstep hs hnone =>
    obtain ⟨c, hcls, -⟩ := Buffer.upTo_cons hstep
    obtain ⟨-, hnext, -⟩ := next_of_symbol ht hclasses h.1 hcls
    rw [hnext] at hnone
    cases hnone
  | case4 state best b cls b' hstep hs hdead =>
    obtain ⟨c, hcls, -⟩ := Buffer.upTo_cons hstep
    obtain ⟨-, hnext, hmerged⟩ := next_of_symbol ht hclasses h.1 hcls
    obtain ⟨q, hq, hnextq⟩ := hmerged p h
    rw [Option.some.inj (hnext.symm.trans hdead)] at hnextq
    rw [scan_of_step hstep hq, if_pos (hnextq.eq_dead ht)]
    exact ⟨⟨best, rfl, rfl⟩, .refl b', rfl, .inl rfl⟩
  | case5 state best b cls b' hstep hs next hnext hdead rule hrule ih =>
    obtain ⟨c, hcls, hread⟩ := Buffer.upTo_cons hstep
    obtain ⟨hc, hnext', hmerged⟩ := next_of_symbol ht hclasses h.1 hcls
    obtain ⟨q, hq, hnextq⟩ := hmerged p h
    obtain rfl := Option.some.inj (hnext'.symm.trans hnext)
    have hrule' : t.minimize.accepting q = some rule := (hnextq.accepting_eq ht).trans hrule
    have hlive : q ≠ t.minimize.automaton.dead := by
      rintro rfl
      rw [ht.minimize.accepting_dead] at hrule'
      cases hrule'
    have hclasses' := (Buffer.step_reads hstep).1.classes.trans hclasses
    rw [scan_of_step hstep hq, if_neg hlive, hrule', hread _ (pos_le_scan _ _ _ b'.setMark)]
    exact (ih hclasses' hnextq).imp fun hstrays => .cons hc hstrays
  | case6 state best b cls b' hstep hs next hnext hdead hrule ih =>
    obtain ⟨c, hcls, hread⟩ := Buffer.upTo_cons hstep
    obtain ⟨hc, hnext', hmerged⟩ := next_of_symbol ht hclasses h.1 hcls
    obtain ⟨q, hq, hnextq⟩ := hmerged p h
    obtain rfl := Option.some.inj (hnext'.symm.trans hnext)
    have hrule' : t.minimize.accepting q = none := (hnextq.accepting_eq ht).trans hrule
    have hclasses' := (Buffer.step_reads hstep).1.classes.trans hclasses
    rw [scan_of_step hstep hq, hread _ (pos_le_scan _ _ _ b')]
    by_cases hlive : q = t.minimize.automaton.dead
    · -- the scan with merged states stops here, and the other one reads on
      subst hlive
      rw [if_pos rfl]
      have hhopeless := hnextq.hopeless ht
      obtain ⟨hfound, hsame, hmark, hstop⟩ :=
        scan_of_hopeless best ht hclasses' hnextq.1 hhopeless
      refine ⟨⟨best, hfound, rfl⟩, hsame.symm, hmark.symm, hstop.imp Eq.symm fun hpos => ?_⟩
      refine ScanTable.strays_of_hopeless hc (Buffer.upTo_ne_nil hpos ?_) hhopeless
      exact hsame.text ▸ Buffer.pos_le_size _
    · rw [if_neg hlive, hrule']
      exact (ih hclasses' hnextq).imp fun hstrays => .cons hc hstrays

/-- What a scan from the start finds is found with merged states too. -/
theorem exists_alike_scan (ht : t.Decides alphabet patterns)
    (hclasses : b.classes = some t.classes) {result : Found}
    (h : scan t t.automaton.start none b = (result, b')) :
    ∃ found b'', result = .ok found ∧
      scan t.minimize t.minimize.automaton.start none b = (.ok found, b'') ∧ SameRoot b' b'' ∧
      b''.mark = b'.mark ∧
      (b'' = b' ∨ t.Strays alphabet t.automaton.start (b.upTo b')) := by
  have halike := alike_scan none ht hclasses ht.merged_start
  rw [h] at halike
  obtain ⟨⟨found, hfound, hfound'⟩, hsame, hmark, hstops⟩ := halike
  exact ⟨found, _, hfound, Prod.ext hfound' rfl, hsame, hmark, hstops⟩

/-! ### What a search finds -/

theorem search_of_atEnd (h : b.atEnd = true) :
    search t b = (.ok (.endOfInput b.position), b, true) := by
  rw [search, if_pos h]

theorem search_of_not_atEnd (h : b.atEnd ≠ true) : search t b =
    match scan t t.automaton.start none b with
    | (.error fault, b') => (.error fault, b', false)
    | (.ok none, b') => (.error (.noMatch b'.current b'.position), b', false)
    | (.ok (some rule), b') =>
      match t.actionOf rule with
      | .emit kind =>
        match valueBy (t.payloadOf kind) b'.extract.1 with
        | .ok value => (.ok ⟨kind, value, b'.extract.1, b'.extract.2.1⟩, b'.advance, false)
        | .error fault => (.error (.payload fault), b'.advance, false)
      | .finish => (.ok (.endOfInput b'.extract.2.1), b'.advance, true)
      | .skip => search t b'.advance := by
  rw [search, if_neg h]
  split <;> simp_all
  rfl

/-- What a match leads to with merged states: the same, but for the search that goes on after a
text is dropped. -/
theorem search_minimize_of_match (ht : t.Decides alphabet patterns)
    (hclasses : b.classes = some t.classes) (hend : b.atEnd ≠ true) {rule : Nat}
    (hscan : scan t t.automaton.start none b = (.ok (some rule), b')) :
    search t.minimize b =
      match t.actionOf rule with
      | .emit kind =>
        match valueBy (t.payloadOf kind) b'.extract.1 with
        | .ok value => (.ok ⟨kind, value, b'.extract.1, b'.extract.2.1⟩, b'.advance, false)
        | .error fault => (.error (.payload fault), b'.advance, false)
      | .finish => (.ok (.endOfInput b'.extract.2.1), b'.advance, true)
      | .skip => search t.minimize b'.advance := by
  obtain ⟨found, b'', hfound, hscan', hsame, hmark, -⟩ := exists_alike_scan ht hclasses hscan
  cases hfound
  obtain ⟨hadvance, hextract⟩ := hsame.advance_eq hmark
  rw [search_of_not_atEnd hend, hscan']
  simp only [hadvance, hextract]
  rfl

/-- A search only goes on, and its symbols stay in their classes. -/
theorem search_goes_on (t : ScanTable) (b : Buffer) :
    b.root ≤ (search t b).2.1.root ∧ (search t b).2.1.classes = b.classes := by
  have hsame := sameRoot_scan t t.automaton.start none
  fun_induction search t b with
  | case1 => exact ⟨Nat.le_refl _, rfl⟩
  | case2 b hend fault b' hscan | case3 b hend b' hscan =>
    have hsame := hsame b
    rw [hscan] at hsame
    exact ⟨Nat.le_of_eq hsame.root.symm, hsame.classes⟩
  | case4 b hend rule b' hscan hs kind hkind text position after hextract value hvalue
  | case5 b hend rule b' hscan hs kind hkind text position after hextract fault hvalue
  | case6 b hend rule b' hscan hs hfinish text position after hextract =>
    have hsame := hsame b
    rw [hscan] at hs hsame
    obtain rfl : after = b'.advance := congrArg (·.2.2) hextract.symm
    exact ⟨Nat.le_of_lt (hs.2.2 rule rfl), hsame.classes⟩
  | case7 b hend rule b' hscan hs hskip ih =>
    have hsame := hsame b
    rw [hscan] at hs hsame
    exact ⟨Nat.le_trans (Nat.le_of_lt (hs.2.2 rule rfl)) ih.1, ih.2.trans hsame.classes⟩

/-- A lexer that finds no match. -/
theorem next_of_scan_eq_none (hend : b.atEnd = false)
    (hscan : scan t t.automaton.start none b = (.ok none, b')) :
    (⟨t, b, false⟩ : Lexer).next =
      (.error (.noMatch b'.current b'.position), ⟨t, b', false⟩) := by
  rw [next, if_neg Bool.false_ne_true, search_of_not_atEnd (by simp [hend]), hscan]

/-- A match ends behind the position from which it was looked for. -/
theorem lt_mark_of_scan {q rule : Nat} (hq : q ≤ b.pos) (hbest : best.isSome → q < b.mark)
    (h : (scan t i best b).1 = .ok (some rule)) : q < (scan t i best b).2.mark := by
  fun_induction scan t i best b with
  | case1 state best b hend =>
    cases h
    exact hbest rfl
  | case2 state best b b' hstep | case4 state best b cls b' hstep =>
    obtain ⟨-, -, hmark, -⟩ := Buffer.step_reads hstep
    cases h
    exact hmark ▸ hbest rfl
  | case3 => cases h
  | case5 state best b cls b' hstep hs next hnext hdead other hother ih =>
    have := hs.2.1
    refine ih ?_ (fun _ => ?_) h
    · rw [Buffer.pos_setMark]
      omega
    · rw [Buffer.mark_setMark]
      omega
  | case6 state best b cls b' hstep hs next hnext hdead hrule ih =>
    obtain ⟨-, -, hmark, -⟩ := Buffer.step_reads hstep
    have := hs.2.1
    exact ih (by omega) (fun hsome => hmark ▸ hbest hsome) h

/-- What the last scan of a search has read: it starts at the position of the buffer or, after
something was dropped, at the root. -/
def lastRead (b b' : Buffer) : List Char :=
  (b.text.toList.drop (max b.pos b'.root)).take (b'.pos - max b.pos b'.root)

/-- Two searches have the same outcome. Their buffers are the same too, unless the first one found
no match and has read on for nothing. -/
structure SameOutcome (inVain : Prop) (o o' : Outcome) : Prop where
  result : o'.1 = o.1
  finished : o'.2.2 = o.2.2
  sameRoot : SameRoot o.2.1 o'.2.1
  stops : o'.2.1 = o.2.1 ∨ (∃ char position, o.1 = .error (.noMatch char position)) ∧ inVain

theorem SameOutcome.imp {P Q : Prop} {o o' : Outcome} (h : SameOutcome P o o') (hPQ : P → Q) :
    SameOutcome Q o o' :=
  ⟨h.result, h.finished, h.sameRoot, h.stops.imp_right (And.imp_right hPQ)⟩

/-- **A search with merged states has the same outcome.** -/
theorem sameOutcome_search (ht : t.Decides alphabet patterns)
    (hclasses : b.classes = some t.classes) :
    SameOutcome (t.Strays alphabet t.automaton.start (lastRead b (search t b).2.1)) (search t b)
      (search t.minimize b) := by
  fun_induction search t b with
  | case1 b hend =>
    rw [search_of_atEnd hend]
    exact ⟨rfl, rfl, .refl b, .inl rfl⟩
  | case2 b hend fault b' hscan =>
    obtain ⟨found, b'', hfound, -⟩ := exists_alike_scan ht hclasses hscan
    cases hfound
  | case3 b hend b' hscan =>
    obtain ⟨found, b'', hfound, hscan', hsame, -, hstops⟩ := exists_alike_scan ht hclasses hscan
    cases hfound
    obtain ⟨hcurrent, hposition⟩ := hsame.current_eq
    have hroot : b'.root = b.root := by
      have := (sameRoot_scan t t.automaton.start none b).root
      rwa [hscan] at this
    have hread : lastRead b b' = b.upTo b' := by
      have := b.root_le_mark
      have := b.mark_le_pos
      rw [lastRead, Buffer.upTo, hroot, Nat.max_eq_left (by omega)]
    rw [search_of_not_atEnd hend, hscan']
    refine ⟨?_, rfl, hsame, hstops.imp_right fun hstrays => ⟨⟨_, _, rfl⟩, hread ▸ hstrays⟩⟩
    simp only [hcurrent, hposition]
  | case4 b hend rule b' hscan hs kind hkind text position after hextract value hvalue
  | case5 b hend rule b' hscan hs kind hkind text position after hextract fault hvalue =>
    obtain rfl : after = b'.advance := congrArg (·.2.2) hextract.symm
    rw [search_minimize_of_match ht hclasses hend hscan, hkind]
    simp only [hextract, hvalue]
    exact ⟨rfl, rfl, .refl _, .inl rfl⟩
  | case6 b hend rule b' hscan hs hfinish text position after hextract =>
    obtain rfl : after = b'.advance := congrArg (·.2.2) hextract.symm
    rw [search_minimize_of_match ht hclasses hend hscan, hfinish, hextract]
    exact ⟨rfl, rfl, .refl _, .inl rfl⟩
  | case7 b hend rule b' hscan hs hskip ih =>
    have hsame := sameRoot_scan t t.automaton.start none b
    rw [hscan] at hsame hs
    rw [search_minimize_of_match ht hclasses hend hscan, hskip]
    refine (ih (hsame.classes.trans hclasses)).imp fun hstrays => ?_
    -- the last scan has begun at a root behind the position
    have hmark : b.pos < b'.mark := by
      have hfound : (scan t t.automaton.start none b).1 = .ok (some rule) := congrArg (·.1) hscan
      have hlt := lt_mark_of_scan (Nat.le_refl b.pos) (by simp) hfound
      rwa [hscan] at hlt
    have hroot := (search_goes_on t b'.advance).1
    rw [Buffer.root_advance] at hroot
    have hread : lastRead b'.advance (search t b'.advance).2.1 =
        lastRead b (search t b'.advance).2.1 := by
      have hpos : b'.advance.pos = b'.mark := rfl
      rw [lastRead, lastRead, hpos, Nat.max_eq_right hroot, Nat.max_eq_right (by omega),
        Buffer.text_advance, hsame.text]
    exact hread ▸ hstrays

end Lexer

end LexParse
