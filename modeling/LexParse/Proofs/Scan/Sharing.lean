import LexParse.Proofs.Scan.Accounts

/-!
# Lexers that share a buffer

Several lexers may work on one buffer, each with its own table, in any order, and may go on after
faults. Whatever they do to the buffer they do by its operations, and the text and the position of
an answer are what the last of these operations reported. So the accounts of the buffer are kept
whoever works on it.

## What is proved

* `Lexer.after_scanOps`, `Lexer.search_eq`: the operations of a scan and of a search, and what they
  report.
* `Shared.buffer_after`: the same for any use that several lexers make of a buffer.
* `Shared.accounts`: what that means for the buffer and for the answers.
-/

namespace LexParse

namespace Lexer

variable {table : ScanTable} {state : Nat} {best : Option Nat} {b : Buffer}

/-! ### The operations of one lexer -/

/-- The operations of a scan from a state on. -/
def scanOps (table : ScanTable) (state : Nat) (b : Buffer) : List Buffer.Op :=
  match h : b.step with
  | none | some (none, _) => [.step]
  | some (some cls, b') =>
    have := Buffer.step_eq_some h
    match table.automaton.next? state cls with
    | none => [.step]
    | some state =>
      if state = table.automaton.dead then [.step]
      else
        match table.accepting state with
        | some _ => .step :: .mark :: scanOps table state b'.setMark
        | none => .step :: scanOps table state b'
termination_by b.text.size - b.pos
decreasing_by all_goals simp_all; omega

/-- The operations of a search for the next token. -/
def searchOps (table : ScanTable) (b : Buffer) : List Buffer.Op :=
  if b.atEnd then [.pos]
  else scanOps table table.automaton.start b ++
    match h : scan table table.automaton.start none b with
    | (.error _, _) => []
    | (.ok none, _) => [.current, .pos]
    | (.ok (some rule), b') =>
      have hs := @scan_root table table.automaton.start none b (by simp)
      .extract :: if table.actionOf rule = .skip then searchOps table b'.advance else []
termination_by b.remaining
decreasing_by
  have hlt : b.root < b'.mark := by simpa [h] using hs.2.2 rule
  have htext : b'.text = b.text := by simpa [h] using hs.2.1
  have h1 := b'.mark_le_pos
  have h2 := b'.pos_le_size
  simp only [Buffer.remaining, Buffer.root_advance, Buffer.text_advance, htext] at *
  omega

/-- An answer is what the last operations have reported: a token the text that was extracted, with
its position; the end of the input a position, whether it was asked for or that of a text; and a
fault the character where nothing matches. -/
def Answers (reports : List (Buffer × Buffer.Report)) : Except ScanFault Token → Prop
  | .ok token =>
    (∃ b text, reports.getLast? = some (b, .extracted text token.position) ∧
      (token.text = text ∨ token = .endOfInput token.position)) ∨
    ∃ b, reports.getLast? = some (b, .position token.position) ∧
      token = .endOfInput token.position
  | .error (.noMatch char position) =>
    ∃ b before, reports = before ++ [(b, .char char), (b, .position position)]
  | .error _ => True

theorem Answers.append {reports : List (Buffer × Buffer.Report)}
    {answer : Except ScanFault Token} (before : List (Buffer × Buffer.Report))
    (h : Answers reports answer) : Answers (before ++ reports) answer := by
  have hlast : ∀ {p}, reports.getLast? = some p → (before ++ reports).getLast? = some p := by
    intro p hp
    rw [List.getLast?_append, hp]
    rfl
  cases answer with
  | ok token =>
    rcases h with ⟨b, text, hreport, htext⟩ | ⟨b, hreport, hend⟩
    · exact .inl ⟨b, text, hlast hreport, htext⟩
    · exact .inr ⟨b, hlast hreport, hend⟩
  | error fault =>
    cases fault with
    | noMatch char position =>
      obtain ⟨b, rest, rfl⟩ := h
      exact ⟨b, before ++ rest, by rw [List.append_assoc]⟩
    | _ => trivial

theorem after_scanOps : b.after (scanOps table state b) = (scan table state best b).2 := by
  fun_induction scan table state best b with
  | case1 | case2 | case3 | case4 =>
    -- the scan stops with this step
    rw [scanOps]
    split <;> simp_all [Buffer.after, Buffer.perform]
  | case5 | case6 =>
    rw [scanOps]
    split <;> simp_all [Buffer.after, Buffer.perform]

/-- A scan has no fault but one. -/
theorem eq_noColumn_of_scan {fault : ScanFault}
    (h : (scan table state best b).1 = .error fault) : fault = .noColumn := by
  fun_induction scan table state best b with
  | case1 | case2 | case4 => cases h
  | case3 =>
    cases h
    rfl
  | case5 _ _ _ _ _ _ _ _ _ _ _ _ ih | case6 _ _ _ _ _ _ _ _ _ _ _ ih => exact ih h

section

variable {b' : Buffer} {fault : ScanFault} {rule : Nat}

theorem searchOps_of_error (hend : ¬ b.atEnd = true)
    (hscan : scan table table.automaton.start none b = (.error fault, b')) :
    searchOps table b = scanOps table table.automaton.start b := by
  rw [searchOps, if_neg hend]
  split <;> simp_all

theorem searchOps_of_none (hend : ¬ b.atEnd = true)
    (hscan : scan table table.automaton.start none b = (.ok none, b')) :
    searchOps table b = scanOps table table.automaton.start b ++ [.current, .pos] := by
  rw [searchOps, if_neg hend]
  split <;> simp_all

theorem searchOps_of_some (hend : ¬ b.atEnd = true)
    (hscan : scan table table.automaton.start none b = (.ok (some rule), b')) :
    searchOps table b = scanOps table table.automaton.start b ++ .extract ::
      if table.actionOf rule = .skip then searchOps table b'.advance else [] := by
  rw [searchOps, if_neg hend]
  split <;> simp_all

theorem after_scanOps_eq (hscan : scan table table.automaton.start none b = (found, b')) :
    b.after (scanOps table table.automaton.start b) = b' := by
  rw [after_scanOps, hscan]

/-- A match that is not dropped is extracted last. -/
theorem extracts_of_some (hend : ¬ b.atEnd = true)
    (hscan : scan table table.automaton.start none b = (.ok (some rule), b'))
    (hskip : table.actionOf rule ≠ .skip) {text : String} {position : Position} {after : Buffer}
    (hextract : b'.extract = (text, position, after)) :
    after = b.after (searchOps table b) ∧
      (b.run (searchOps table b)).getLast? = some (b', .extracted text position) := by
  have hperform : b'.perform .extract = (.extracted text position, after) := by
    rw [Buffer.perform, hextract]
  rw [searchOps_of_some hend hscan, if_neg hskip, Buffer.after_append, Buffer.run_append,
    after_scanOps_eq hscan, Buffer.after, Buffer.run, hperform]
  exact ⟨rfl, List.getLast?_concat ..⟩

end

/-- **What a search does to its buffer** it does by operations, and the answer is what the last of
them have reported. -/
theorem search_eq (table : ScanTable) (b : Buffer) :
    (search table b).2.1 = b.after (searchOps table b) ∧
      Answers (b.run (searchOps table b)) (search table b).1 := by
  fun_induction search table b with
  | case1 b hend =>
    rw [searchOps, if_pos hend]
    exact ⟨rfl, .inr ⟨b, rfl, rfl⟩⟩
  | case2 b hend fault b' hscan =>
    obtain rfl := eq_noColumn_of_scan (congrArg Prod.fst hscan)
    rw [searchOps_of_error hend hscan, after_scanOps_eq hscan]
    exact ⟨rfl, trivial⟩
  | case3 b hend b' hscan =>
    rw [searchOps_of_none hend hscan, Buffer.after_append, Buffer.run_append,
      after_scanOps_eq hscan]
    exact ⟨rfl, b', _, rfl⟩
  | case4 b hend rule b' hscan hs kind haction text position after hextract value hvalue =>
    obtain ⟨hafter, hlast⟩ := extracts_of_some hend hscan (by simp [haction]) hextract
    exact ⟨hafter, .inl ⟨b', text, hlast, .inl rfl⟩⟩
  | case5 b hend rule b' hscan hs kind haction text position after hextract fault hfault =>
    exact ⟨(extracts_of_some hend hscan (by simp [haction]) hextract).1, trivial⟩
  | case6 b hend rule b' hscan hs haction text position after hextract =>
    obtain ⟨hafter, hlast⟩ := extracts_of_some hend hscan (by simp [haction]) hextract
    exact ⟨hafter, .inl ⟨b', text, hlast, .inr rfl⟩⟩
  | case7 b hend rule b' hscan hs haction ih =>
    -- the text is dropped, and the search goes on behind it
    rw [searchOps_of_some hend hscan, if_pos haction, Buffer.after_append, Buffer.run_append,
      after_scanOps_eq hscan]
    exact ⟨ih.1, (ih.2.append [_]).append _⟩

/-- The operations of a request for the next token. -/
def nextOps (l : Lexer) : List Buffer.Op := if l.finished then [] else searchOps l.table l.buffer

theorem next_eq (l : Lexer) : l.next.2.buffer = l.buffer.after l.nextOps ∧
    Answers (l.buffer.run l.nextOps) l.next.1 := by
  rw [next, nextOps]
  split
  · exact ⟨rfl, trivial⟩
  · exact search_eq l.table l.buffer

end Lexer

/-! ### Several lexers -/

/-- Lexers that share a buffer: the table of each, and whether it has handed out the end of the
input. -/
structure Shared where
  /-- The buffer. -/
  buffer : Buffer
  /-- The lexers. -/
  lexers : List (ScanTable × Bool) := []

namespace Shared

/-- What is done with lexers that share a buffer. -/
inductive Use where
  /-- Make one more lexer on the buffer. -/
  | share (table : ScanTable)
  /-- Ask a lexer for the next token. -/
  | next (i : Nat)
  /-- Let a lexer start again at the beginning of the input. -/
  | reset (i : Nat)
  /-- Perform an operation on the buffer. -/
  | perform (op : Buffer.Op)

/-- One of the lexers. -/
def lexer? (s : Shared) (i : Nat) : Option Lexer :=
  s.lexers[i]?.map fun (table, finished) => { table, buffer := s.buffer, finished }

/-- What a lexer leaves behind. -/
def put (s : Shared) (i : Nat) (l : Lexer) : Shared where
  buffer := l.buffer
  lexers := s.lexers.set i (l.table, l.finished)

/-- What a use answers, if it is a request for a token, and what it leaves behind. There is nothing
to be done with a lexer that has not been made. -/
def use (s : Shared) : Use → Option (Except ScanFault Token) × Shared
  | .share table =>
    let l := Lexer.ofBuffer table s.buffer
    (none, { buffer := l.buffer, lexers := s.lexers ++ [(l.table, l.finished)] })
  | .next i =>
    match s.lexer? i with
    | some l => (some l.next.1, s.put i l.next.2)
    | none => (none, s)
  | .reset i =>
    match s.lexer? i with
    | some l => (none, s.put i l.reset)
    | none => (none, s)
  | .perform op => (none, { s with buffer := (s.buffer.perform op).2 })

/-- The operations of a use. -/
def useOps (s : Shared) : Use → List Buffer.Op
  | .share table => [.mapTo table.classes]
  | .next i => (s.lexer? i).elim [] Lexer.nextOps
  | .reset i => (s.lexer? i).elim [] fun _ => [.reset]
  | .perform op => [op]

/-- What some uses leave behind. -/
def after (s : Shared) : List Use → Shared
  | [] => s
  | u :: us => (s.use u).2.after us

/-- The operations of some uses. -/
def ops (s : Shared) : List Use → List Buffer.Op
  | [] => []
  | u :: us => s.useOps u ++ (s.use u).2.ops us

variable {s : Shared} {i : Nat} {l : Lexer}

theorem buffer_of_lexer? (h : s.lexer? i = some l) : l.buffer = s.buffer := by
  obtain ⟨p, -, rfl⟩ := Option.map_eq_some_iff.1 h
  rfl

/-- A use does to the buffer what its operations do, and answers what the last of them report. -/
theorem use_eq (s : Shared) (u : Use) : (s.use u).2.buffer = s.buffer.after (s.useOps u) ∧
    ∀ answer, (s.use u).1 = some answer → Lexer.Answers (s.buffer.run (s.useOps u)) answer := by
  cases u with
  | share table => exact ⟨rfl, nofun⟩
  | next i =>
    rw [use, useOps]
    cases hl : s.lexer? i with
    | none => exact ⟨rfl, nofun⟩
    | some l =>
      obtain ⟨hbuffer, hanswers⟩ := l.next_eq
      rw [buffer_of_lexer? hl] at hbuffer hanswers
      refine ⟨hbuffer, fun answer h => ?_⟩
      cases h
      exact hanswers
  | reset i =>
    rw [use, useOps]
    cases hl : s.lexer? i with
    | none => exact ⟨rfl, nofun⟩
    | some l => exact ⟨congrArg Buffer.reset (buffer_of_lexer? hl), nofun⟩
  | perform op => exact ⟨rfl, nofun⟩

/-- The buffer after some uses is that after their operations. -/
theorem buffer_after (s : Shared) (us : List Use) :
    (s.after us).buffer = s.buffer.after (s.ops us) := by
  induction us generalizing s with
  | nil => rfl
  | cons u us ih =>
    rw [after, ih, ops, Buffer.after_append, (s.use_eq u).1]

/-- Nothing but a buffer of a text. -/
def ofText (text : List Char) (file : String) : Shared where
  buffer := .ofText text file

/-- **A buffer keeps its accounts**, whoever works on it. After any operations its offsets are in
order, what has been handed out since the last restart is the text before the root, and every report
is right: a text is the one from the root to the mark, and its position goes from there to there,
while the position that is asked for alone is that of the root. Lexers that share the buffer, in any
order and also after faults, do to it what some operations do, and the text and the position of an
answer are what the last of these have reported. -/
theorem accounts (text : List Char) (file : String) :
    (∀ ops, Buffer.Accounts text file ops ((Buffer.ofText text file).after ops)) ∧
    ∀ us, let s := (ofText text file).after us
      let ops := (ofText text file).ops us
      s.buffer = (Buffer.ofText text file).after ops ∧ Buffer.Accounts text file ops s.buffer ∧
      ∀ i answer, (s.use (.next i)).1 = some answer →
        Lexer.Answers (s.buffer.run (s.useOps (.next i))) answer ∧
        ∀ p ∈ s.buffer.run (s.useOps (.next i)), p.2.Right text file p.1 := by
  refine ⟨Buffer.accounts_after text file, fun us => ?_⟩
  intro s ops
  have hbuffer : s.buffer = (Buffer.ofText text file).after ops := buffer_after _ us
  refine ⟨hbuffer, hbuffer ▸ Buffer.accounts_after text file ops, fun i answer h => ?_⟩
  refine ⟨(s.use_eq (.next i)).2 answer h, fun p hp => ?_⟩
  refine (Buffer.accounts_after text file (ops ++ s.useOps (.next i))).reports p ?_
  rw [Buffer.run_append, ← hbuffer]
  exact List.mem_append_right _ hp

/-- The table of one rule for one character. -/
def single (c : Char) (kind : String) : ScanTable where
  automaton :=
    { rows := #[#[2, 1], #[2, 2], #[2, 2]], accepting := #[none, some 0, none]
      start := 0, dead := 2 }
  alphabet := .bytes
  classes := { size := 256, starts := [0, codeOf c, codeOf c + 1], classes := [0, 1, 0],
               count := 2 }
  rules := [{ pattern := .chars (.ofChar c), action := .emit kind, source := "" }]
  kinds := []

/-- One lexer reads the end of a line and another one a letter. -/
def takingTurns : List Use :=
  [.share (single '\n' "END"), .share (single 'a' "LETTER"), .next 0, .next 1]

/-- The character and the position of a fault, where nothing matches. -/
def unmatched? : Except ScanFault Token → Option (String × Position)
  | .error (.noMatch char position) => some (char, position)
  | _ => none

/-- After lexers have taken turns a fault is still where it is said to be. -/
theorem locates_takingTurns : ∃ b : Buffer,
    Locates ['\n', 'a', 'b'] "<string>" b.root b.root ⟨"<string>", 2, 1, 2, 1⟩ := by
  have hfault : ((((ofText ['\n', 'a', 'b'] "<string>").after takingTurns).use
      (.next 1)).1.bind unmatched?) = some ("b", ⟨"<string>", 2, 1, 2, 1⟩) := by decide +kernel
  obtain ⟨answer, hanswer, hunmatched⟩ := Option.bind_eq_some_iff.1 hfault
  obtain ⟨-, -, hnext⟩ := (accounts ['\n', 'a', 'b'] "<string>").2 takingTurns
  obtain ⟨hanswers, hright⟩ := hnext 1 answer hanswer
  unfold unmatched? at hunmatched
  split at hunmatched
  · cases hunmatched
    obtain ⟨b, before, hrun⟩ := hanswers
    exact ⟨b, hright (b, .position _) (by rw [hrun]; simp)⟩
  · cases hunmatched

end Shared

end LexParse
