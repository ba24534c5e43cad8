import LexParse.Proofs.Scan.Lockstep

/-!
# Going on after a fault

A user asks a lexer for token after token, may go on after a fault, and may start again. With merged
states the answers are the same until a lexer *strays*: it finds no match, and to see that it reads
further than was needed. Its position stays where the scan has stopped, and the next scan goes on
from there; with merged states the position is less far on, so the next answer may be another one.
Starting again makes up for it.

Straying is said of the text and the rules alone: some part of what has been read, and not the whole
of it, is not the beginning of anything that a rule matches (`Overruns`).

## What is proved

* `Lexer.answers_merged`: merging states does not change the answers, if a lexer that has strayed is
  started again before it is asked for the next token.
* `Description.answers_eq_of_restarts`: the same for the two tables of every description.
* `Description.answers_ne_outsideByte`: without that, the answers may differ.
-/

namespace LexParse

variable {alphabet : Alphabet} {rules : List ScanRule}

namespace Lexer

/-! ### Calls -/

/-- A call of a lexer: for the next token, or to start again. -/
inductive Call where
  /-- Ask for the next token. -/
  | next
  /-- Start again at the beginning of the input. -/
  | reset
deriving DecidableEq, Repr

variable {l : Lexer}

/-- What a call answers, and the lexer after it. Starting again answers nothing. -/
def call (l : Lexer) : Call → Option (Except ScanFault Token) × Lexer
  | .next => (some l.next.1, l.next.2)
  | .reset => (none, l.reset)

/-- The answers to calls that are made one after the other. -/
def answers (l : Lexer) : List Call → List (Option (Except ScanFault Token))
  | [] => []
  | c :: calls => (l.call c).1 :: (l.call c).2.answers calls

section

variable (alphabet : Alphabet) (rules : List ScanRule)

/-- The next token is not found, and to see that the lexer reads further than is needed. -/
def Strays (l : Lexer) : Prop :=
  (∃ char position, l.next.1 = .error (.noMatch char position)) ∧
    Overruns alphabet rules (lastRead l.buffer l.next.2.buffer)

/-- A lexer that strays is not asked again before it has started again. -/
def Restarts (l : Lexer) : List Call → Prop
  | [] => True
  | c :: calls => (c = .next → l.Strays alphabet rules → calls.head? ≠ some .next) ∧
    (l.call c).2.Restarts calls

end

/-- The lexer with the states of its table merged. -/
def merged (l : Lexer) : Lexer := { l with table := l.table.minimize }

/-- Merging does not change the classes that a buffer maps symbols to. -/
theorem merged_ofBuffer (table : ScanTable) (buffer : Buffer) :
    (ofBuffer table buffer).merged = ofBuffer table.minimize buffer := rfl

theorem call_keeps (l : Lexer) (c : Call) :
    (l.call c).2.table = l.table ∧ (l.call c).2.buffer.classes = l.buffer.classes := by
  cases c with
  | reset => exact ⟨rfl, rfl⟩
  | next =>
    rw [call, next]
    split
    · exact ⟨rfl, rfl⟩
    · exact ⟨rfl, (search_goes_on l.table l.buffer).2⟩

/-- The next token is the same with merged states. The lexers after it are the same too, unless the
one without merging has strayed; started again they are the same in any case. -/
theorem next_merged (ht : l.table.Decides alphabet (rules.map (·.pattern)))
    (hclasses : l.buffer.classes = some l.table.classes) :
    l.merged.next.1 = l.next.1 ∧ l.merged.next.2.reset = l.next.2.merged.reset ∧
      (l.merged.next.2 = l.next.2.merged ∨ l.Strays alphabet rules) := by
  by_cases hfinished : l.finished = true
  · have hnext : l.next = (.error .exhausted, l) := by rw [next, if_pos hfinished]
    have hnext' : l.merged.next = (.error .exhausted, l.merged) := by
      rw [next]
      exact if_pos hfinished
    rw [hnext, hnext']
    exact ⟨rfl, rfl, .inl rfl⟩
  · have hnext : l.next = ((search l.table l.buffer).1,
        { l with buffer := (search l.table l.buffer).2.1
                 finished := (search l.table l.buffer).2.2 }) := by
      rw [next, if_neg hfinished]
    have hnext' : l.merged.next = ((search l.table.minimize l.buffer).1,
        { l.merged with buffer := (search l.table.minimize l.buffer).2.1
                        finished := (search l.table.minimize l.buffer).2.2 }) := by
      rw [next]
      exact if_neg hfinished
    obtain ⟨hresult, hfinished', hsame, hstops⟩ := sameOutcome_search ht hclasses
    rw [Strays, hnext, hnext']
    refine ⟨hresult, ?_, hstops.imp (fun hbuffer => ?_) fun hstrays => ?_⟩
    · rw [reset, reset]
      simp only [merged, hsame.reset_eq]
    · simp only [merged, hbuffer, hfinished']
    · exact ⟨hstrays.1, ht.overruns hstrays.2⟩

/-- **Merging states does not change the answers**, as long as a lexer that has strayed is started
again. -/
theorem answers_merged {calls : List Call} (ht : l.table.Decides alphabet (rules.map (·.pattern)))
    (hclasses : l.buffer.classes = some l.table.classes) (h : l.Restarts alphabet rules calls) :
    l.merged.answers calls = l.answers calls := by
  induction calls generalizing l with
  | nil => rfl
  | cons c calls ih =>
    obtain ⟨hstray, hrest⟩ := h
    obtain ⟨htable, hbuffer⟩ := l.call_keeps c
    have hafter : (l.call c).2.merged.answers calls = (l.call c).2.answers calls :=
      ih (htable ▸ ht) (htable ▸ hbuffer.trans hclasses) hrest
    cases c with
    | reset => exact congrArg (none :: ·) hafter
    | next =>
      obtain ⟨hresult, hreset, hsame⟩ := next_merged ht hclasses
      show some l.merged.next.1 :: l.merged.next.2.answers calls =
        some l.next.1 :: l.next.2.answers calls
      rw [hresult]
      refine congrArg (some l.next.1 :: ·) (Eq.trans ?_ hafter)
      rcases hsame with hsame | hstrays
      · rw [hsame]
        rfl
      · -- the lexers differ, but no more once they have started again
        cases calls with
        | nil => rfl
        | cons d rest =>
          cases d with
          | next => exact absurd rfl (hstray rfl hstrays)
          | reset =>
            show none :: l.merged.next.2.reset.answers rest =
              none :: l.next.2.merged.reset.answers rest
            rw [hreset]

end Lexer

namespace Description

/-- **Merging states cannot be seen by the users of a lexer**, whatever they call, if they start
again a lexer that has strayed. Such a lexer has found no match, and to see that it has read further
than was needed. -/
theorem answers_eq_of_restarts {d : Description} {options : Options} {journal : Journal}
    {table : ScanTable} {empties : List ScanRule}
    (h : ((d.scanTable { options with minimize := false }).run journal).1 = .ok (table, empties)) :
    ∃ small alphabet rules,
      ((d.scanTable { options with minimize := true }).run journal).1 = .ok (small, empties) ∧
      options.findAlphabet = .ok alphabet ∧ d.resolveRules = .ok rules ∧
      ∀ (source : Source) (file : String) (encoding : Text.Encoding),
        (∀ fault, Lexer.ofSource table source file encoding = .error fault →
          Lexer.ofSource small source file encoding = .error fault) ∧
        ∀ l, Lexer.ofSource table source file encoding = .ok l →
          ∃ l', Lexer.ofSource small source file encoding = .ok l' ∧
            ∀ calls, l.Restarts alphabet rules calls → l'.answers calls = l.answers calls := by
  have houtcome := (d.yields_scanTable { options with minimize := false } journal).symm.trans h
  obtain ⟨alphabet, rules, halphabet, hrules, hne, hempties, htable⟩ :=
    (d.scannerOutcome_eq_ok_iff _).1 houtcome
  have htable : table = ScanTable.ofRules alphabet rules d.kinds := htable
  have hsmall : d.scannerOutcome { options with minimize := true } =
      .ok (table.minimize, empties) :=
    (d.scannerOutcome_eq_ok_iff _).2
      ⟨alphabet, rules, halphabet, hrules, hne, hempties, congrArg _ htable⟩
  have hdecides := ScanTable.decides_ofRules alphabet rules d.kinds
  rw [← htable] at hdecides
  refine ⟨table.minimize, alphabet, rules, (d.yields_scanTable _ journal).trans hsmall, halphabet,
    hrules, fun source file encoding => ?_⟩
  clear houtcome hsmall h htable
  unfold Lexer.ofSource
  split
  · refine ⟨nofun, fun l hl => ?_⟩
    obtain rfl := Except.ok.inj hl
    refine ⟨_, rfl, fun calls hcalls => ?_⟩
    rw [← Lexer.merged_ofBuffer]
    exact Lexer.answers_merged hdecides rfl hcalls
  · exact ⟨fun _ => id, nofun⟩
  · exact ⟨fun _ => id, nofun⟩

end Description

/-! ### A letter that no byte stands for -/

open Automaton

/-- A letter that no byte stands for, behind one that has a byte; and another letter. -/
def outsideByte : Description where
  kinds := [⟨"AX", none⟩, ⟨"B", none⟩]
  rules := [⟨.seq (.chars (.ofChar 'a')) (.chars (.range 256 256)), .emit "AX", "a\\u0100"⟩,
    ⟨.chars (.ofChar 'b'), .emit "B", "b"⟩]

section

variable {t : ScanTable}

/-- In bytes nothing can be matched after the first letter. -/
theorem hopeless_outsideByte (ht : t.Decides .bytes (outsideByte.rules.map (·.pattern))) :
    t.Hopeless .bytes (t.transition t.automaton.start 97) := by
  intro w hw
  have hall : ∀ c ∈ 97 :: w, Alphabet.contains .bytes c = true :=
    List.forall_mem_cons.2 ⟨by decide, hw⟩
  refine (ht.accepting_eq_none_iff (List.cons_ne_nil 97 w) hall).2 fun r hr hacc => ?_
  simp only [outsideByte, List.map_cons, List.map_nil, List.mem_cons, List.not_mem_nil,
    or_false] at hr
  rcases hr with rfl | rfl
  · obtain ⟨u, v, huv, -, hv⟩ := Regex.matches_seq_iff.1 hacc
    obtain ⟨c, hc, rfl⟩ := Regex.matches_chars_iff.1 hv
    have hbyte : Alphabet.contains .bytes c = true := hall c (huv ▸ by simp)
    rw [Alphabet.contains, Bool.and_eq_true, decide_eq_true_eq, decide_eq_true_eq] at hbyte
    obtain ⟨interval, hmem, hlo, -⟩ := hc
    obtain rfl : interval = ⟨256, 256⟩ := List.mem_singleton.1 hmem
    exact Int.not_lt.2 hlo hbyte.2
  · obtain ⟨c, hc, heq⟩ := Regex.matches_chars_iff.1 hacc
    obtain ⟨rfl, -⟩ := List.cons.inj heq
    exact absurd hc (by decide)

theorem accepting_outsideByte (ht : t.Decides .bytes (outsideByte.rules.map (·.pattern))) :
    t.accepting (t.transition t.automaton.start 98) = some 1 := by
  have hsymbols : ∀ c ∈ [98], Alphabet.contains .bytes c = true := by decide
  refine (ht.accepting_walk (List.cons_ne_nil 98 []) hsymbols 1).2
    ⟨⟨_, rfl, .chars (by decide)⟩, fun j r hr hacc => Nat.pos_of_ne_zero ?_⟩
  rintro rfl
  cases hr
  obtain ⟨u, v, huv, hu, hv⟩ := Regex.matches_seq_iff.1 hacc
  obtain ⟨c, -, rfl⟩ := Regex.matches_chars_iff.1 hu
  obtain ⟨d, -, rfl⟩ := Regex.matches_chars_iff.1 hv
  cases huv

/-- The two letters, read up to a position, with nothing marked and nothing handed out. -/
def letters (t : ScanTable) (pos : Fin 3) : Buffer :=
  { (Buffer.ofText ['a', 'b'] "input").mapTo t.classes with
    pos := pos.val, mark_le_pos := Nat.zero_le pos.val
    pos_le_size := Nat.le_of_lt_succ pos.isLt }

/-- Nothing matches at the first letter. -/
def noLetter : ScanFault := .noMatch "a" ⟨"input", 1, 0, 1, 0⟩

theorem step_letters (t : ScanTable) :
    (letters t 0).step = some ((letters t 0).symbol 'a', letters t 1) ∧
      (letters t 1).step = some ((letters t 1).symbol 'b', letters t 2) ∧
      (letters t 2).step = none := ⟨rfl, rfl, rfl⟩

/-- If the first letter does not lead to the dead state then the scan reads the second one too, and
the next scan has nothing left to read. -/
theorem answers_of_ne_dead (ht : t.Decides .bytes (outsideByte.rules.map (·.pattern)))
    (hlive : t.transition t.automaton.start 97 ≠ t.automaton.dead) :
    (Lexer.ofBuffer t (.ofText ['a', 'b'] "input")).answers [.next, .next] =
      [some (.error noLetter), some (.error noLetter)] := by
  obtain ⟨hstep, hstep', hend⟩ := step_letters t
  have hhopeless := hopeless_outsideByte ht
  have hlive : t.transition t.automaton.start (codeOf 'a') ≠ t.automaton.dead := hlive
  have hnone : t.accepting (t.transition t.automaton.start (codeOf 'a')) = none :=
    hhopeless [] nofun
  have hnone' : t.accepting
      (t.transition (t.transition t.automaton.start (codeOf 'a')) (codeOf 'b')) = none :=
    hhopeless [98] (by decide)
  have hscan : Lexer.scan t t.automaton.start none (letters t 0) = (.ok none, letters t 2) := by
    rw [Lexer.scan_of_char ht rfl ht.total.start (by decide) hstep, if_neg hlive, hnone]
    show Lexer.scan t _ none (letters t 1) = _
    rw [Lexer.scan_of_char ht rfl (ht.transition_lt ht.total.start _) (by decide) hstep', hnone']
    simp only [Lexer.scan_of_step_eq_none hend, ite_self]
  have hfirst : (⟨t, letters t 0, false⟩ : Lexer).next =
      (.error noLetter, ⟨t, letters t 2, false⟩) := Lexer.next_of_scan_eq_none rfl hscan
  have hsecond : (⟨t, letters t 2, false⟩ : Lexer).next =
      (.error noLetter, ⟨t, letters t 2, false⟩) :=
    Lexer.next_of_scan_eq_none rfl (Lexer.scan_of_step_eq_none hend)
  show (⟨t, letters t 0, false⟩ : Lexer).answers [.next, .next] = _
  simp only [Lexer.answers, Lexer.call, hfirst, hsecond]

/-- If the first letter leads to the dead state then the next scan reads the second one from the
start, and what it matches is handed out with the first letter in front. -/
theorem answers_of_eq_dead (ht : t.Decides .bytes (outsideByte.rules.map (·.pattern)))
    (hrules : t.rules = outsideByte.rules) (hkinds : t.kinds = outsideByte.kinds)
    (hdead : t.transition t.automaton.start 97 = t.automaton.dead) :
    (Lexer.ofBuffer t (.ofText ['a', 'b'] "input")).answers [.next, .next] =
      [some (.error noLetter), some (.ok ⟨"B", .str "ab", "ab", ⟨"input", 1, 0, 1, 2⟩⟩)] := by
  obtain ⟨hstep, hstep', hend⟩ := step_letters t
  have hsome : t.accepting (t.transition t.automaton.start (codeOf 'b')) = some 1 :=
    accepting_outsideByte ht
  have hlive : t.transition t.automaton.start (codeOf 'b') ≠ t.automaton.dead := by
    intro heq
    rw [heq, ht.accepting_dead] at hsome
    cases hsome
  have hscan : Lexer.scan t t.automaton.start none (letters t 0) = (.ok none, letters t 1) := by
    rw [Lexer.scan_of_char ht rfl ht.total.start (by decide) hstep]
    exact if_pos hdead
  have hagain : Lexer.scan t t.automaton.start none (letters t 1) =
      (.ok (some 1), (letters t 2).setMark) := by
    rw [Lexer.scan_of_char ht rfl ht.total.start (by decide) hstep', if_neg hlive, hsome]
    exact Lexer.scan_of_step_eq_none rfl
  have hfirst : (⟨t, letters t 0, false⟩ : Lexer).next =
      (.error noLetter, ⟨t, letters t 1, false⟩) := Lexer.next_of_scan_eq_none rfl hscan
  have hsecond : (⟨t, letters t 1, false⟩ : Lexer).next.1 =
      .ok ⟨"B", .str "ab", "ab", ⟨"input", 1, 0, 1, 2⟩⟩ := by
    have haction : t.actionOf 1 = .emit "B" := by
      rw [ScanTable.actionOf, hrules]
      rfl
    have hpayload : t.payloadOf "B" = none := by
      rw [ScanTable.payloadOf, hkinds]
      rfl
    have hmore : (letters t 1).atEnd ≠ true := Bool.false_ne_true
    show (Lexer.search t (letters t 1)).1 = _
    rw [Lexer.search_of_not_atEnd hmore, hagain]
    simp only [haction, hpayload]
    rfl
  show (⟨t, letters t 0, false⟩ : Lexer).answers [.next, .next] = _
  simp only [Lexer.answers, Lexer.call, hfirst, hsecond]

end

/-- Without merging the first letter does not lead to the dead state. -/
theorem transition_ne_dead_outsideByte :
    let t := ScanTable.ofRules .bytes outsideByte.rules outsideByte.kinds
    t.transition t.automaton.start 97 ≠ t.automaton.dead := by
  have hsymbols : ∀ c ∈ [97], Alphabet.contains .bytes c = true := by decide
  have hmove : (1, CharSet.ofChar 'a', 2) ∈
      (Nfa.ofRules (outsideByte.rules.map (·.pattern))).moves := by decide
  have hread : Reaches (Nfa.ofRules (outsideByte.rules.map (·.pattern))).Step 0 [97] 2 :=
    .head (u := []) (t := 1) (.silent (by decide)) (.step (.move hmove (by decide)))
  exact ScanTable.foldl_transition_ne_dead hsymbols hread

/-- With merged states it does. -/
theorem transition_eq_dead_outsideByte :
    let t := (ScanTable.ofRules .bytes outsideByte.rules outsideByte.kinds).minimize
    t.transition t.automaton.start 97 = t.automaton.dead := by
  have hdecides := (ScanTable.decides_ofRules .bytes outsideByte.rules outsideByte.kinds).minimize
  have hminimal := ScanTable.minimal_minimize
    (ScanTable.total_ofRules .bytes outsideByte.rules outsideByte.kinds)
    (ScanTable.even_ofRules _ _ _) (ScanTable.leavesStart_ofRules _ _ _)
  refine hminimal.eq_dead hdecides ?_ ?_ ?_ (hopeless_outsideByte hdecides)
  · -- there are three classes: the two letters and all other bytes
    have hcount : (ScanTable.classesFor .bytes outsideByte.rules).count = 3 := by decide
    have hclasses : ∀ cls < 3, ∃ c ∈ [0, 97, 98],
      (ScanTable.classesFor .bytes outsideByte.rules).classify c = some cls := by decide
    have hsymbols : ∀ c ∈ [0, 97, 98], Alphabet.contains .bytes c = true := by decide
    intro cls hcls
    obtain ⟨c, hc, hclass⟩ := hclasses cls (hcount ▸ hcls)
    exact ⟨c, hsymbols c hc, hclass⟩
  · intro hhopeless
    have hnone := hhopeless [98] (by decide)
    exact Option.some_ne_none 1 ((accepting_outsideByte hdecides).symm.trans hnone)
  · exact hdecides.transition_lt hdecides.total.start 97

namespace Description

theorem resolveRules_outsideByte : outsideByte.resolveRules = .ok outsideByte.rules := by
  rw [resolveRules_eq_mapM _ rfl]
  rfl

theorem scanTable_outsideByte : ((outsideByte.scanTable { minimize := false }).run []).1 =
    .ok (.ofRules .bytes outsideByte.rules outsideByte.kinds, []) := by
  have houtcome := (outsideByte.scannerOutcome_eq_ok_iff { minimize := false }).2
    ⟨.bytes, _, rfl, resolveRules_outsideByte, by decide, rfl, rfl⟩
  exact (outsideByte.yields_scanTable { minimize := false } []).trans houtcome

/-- If the lexer is started again after the fault, merging cannot be seen. -/
theorem answers_eq_outsideByte : ∃ small,
    ((outsideByte.scanTable { minimize := true }).run []).1 = .ok (small, []) ∧
    ∃ l l', Lexer.ofSource (.ofRules .bytes outsideByte.rules outsideByte.kinds)
        (.text ['a', 'b']) "input" .latin1 = .ok l ∧
      Lexer.ofSource small (.text ['a', 'b']) "input" .latin1 = .ok l' ∧
      l'.answers [.next, .reset, .next] = l.answers [.next, .reset, .next] := by
  obtain ⟨small, alphabet, rules, hsmall, -, -, hsource⟩ :=
    @answers_eq_of_restarts outsideByte {} [] _ _ scanTable_outsideByte
  obtain ⟨l', hl', hanswers⟩ := (hsource (.text ['a', 'b']) "input" .latin1).2 _ rfl
  exact ⟨small, hsmall, _, l', rfl, hl', hanswers _ (by simp [Lexer.Restarts])⟩

/-- **If it is not, merging can be seen**: without merging the fault comes again, and with merged
states the two letters are handed out as a token that no rule matches. -/
theorem answers_ne_outsideByte : ∃ table small,
    ((outsideByte.scanTable { minimize := false }).run []).1 = .ok (table, []) ∧
    ((outsideByte.scanTable { minimize := true }).run []).1 = .ok (small, []) ∧
    ∃ l l', Lexer.ofSource table (.text ['a', 'b']) "input" .latin1 = .ok l ∧
      Lexer.ofSource small (.text ['a', 'b']) "input" .latin1 = .ok l' ∧
      l.answers [.next, .next] = [some (.error noLetter), some (.error noLetter)] ∧
      l'.answers [.next, .next] =
        [some (.error noLetter), some (.ok ⟨"B", .str "ab", "ab", ⟨"input", 1, 0, 1, 2⟩⟩)] := by
  have hdecides := ScanTable.decides_ofRules .bytes outsideByte.rules outsideByte.kinds
  have houtcome := (outsideByte.scannerOutcome_eq_ok_iff { minimize := true }).2
    ⟨.bytes, _, rfl, resolveRules_outsideByte, by decide, rfl, rfl⟩
  refine ⟨_, _, scanTable_outsideByte,
    (outsideByte.yields_scanTable { minimize := true } []).trans houtcome, _, _, rfl, rfl,
    answers_of_ne_dead hdecides transition_ne_dead_outsideByte, ?_⟩
  exact answers_of_eq_dead hdecides.minimize rfl rfl transition_eq_dead_outsideByte

end Description

end LexParse
