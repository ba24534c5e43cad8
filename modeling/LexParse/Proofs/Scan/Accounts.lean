import LexParse.Proofs.Scan.Lexer

/-!
# What a buffer hands out, and what it reports

A buffer is worked on by a few operations, in any order. It counts lines as it hands out text and
never looks at the text before its root again, so what it reports has to be right by the counts
alone. Here the positions are compared with the text: a line is counted by the line feeds before an
offset, a column from the last of them.

What is handed out joins to the text before the root. The position of a text that is handed out goes
from the root to the mark; the position that is asked for alone is that of the root, and says
nothing about the mark.

## What is proved

* `Buffer.Accounted.perform`: one operation keeps the accounts, and what it reports is right.
* `Buffer.accounts_after`: so do any operations from the start of a text on.
* `Buffer.not_locates_position`: the position asked for does not end at the mark.
-/

namespace LexParse

/-! ### Places -/

/-- The last line that starts up to an offset starts at another one. -/
structure IsLineStart (text : List Char) (offset start : Nat) : Prop where
  le : start ≤ offset
  starts : start = 0 ∨ ∃ before, start = before + 1 ∧ text[before]? = some '\n'
  last : ∀ i, start ≤ i → i < offset → text[i]? ≠ some '\n'

/-- The line and the column of an offset. -/
structure Stands (text : List Char) (offset : Nat) (line column : Int) : Prop where
  line : line = 1 + (text.take offset).count '\n'
  column : ∃ start, IsLineStart text offset start ∧ column = (offset : Int) - start

/-- A position is that of the text between two offsets. -/
structure Locates (text : List Char) (file : String) (first last : Nat) (p : Position) : Prop where
  file : p.file = file
  first : Stands text first p.line0 p.col0
  last : Stands text last p.line1 p.col1

variable {text : List Char} {file : String} {n m : Nat}

theorem isLineStart_lastLineEnd (hn : n ≤ text.length) :
    IsLineStart text n (Buffer.lastLineEnd (text.take n)) := by
  induction n with
  | zero => exact ⟨Nat.le_refl 0, .inl rfl, nofun⟩
  | succ n ih =>
    obtain ⟨hle, hstarts, hlast⟩ := ih (Nat.le_of_succ_le hn)
    have hc : text[n]? = some text[n] := List.getElem?_eq_getElem hn
    rw [List.take_add_one, hc, Option.toList_some, Lexer.lastLineEnd_append]
    split
    · rename_i hmem
      have hfeed : '\n' = text[n] := List.mem_singleton.1 hmem
      have hend : Buffer.lastLineEnd [text[n]] = 1 := by
        rw [← hfeed]
        rfl
      rw [hend, List.length_take, Nat.min_eq_left (Nat.le_of_succ_le hn)]
      exact ⟨Nat.le_refl _, .inr ⟨n, rfl, hc.trans (congrArg some hfeed.symm)⟩, by omega⟩
    · rename_i hne
      refine ⟨Nat.le_succ_of_le hle, hstarts, fun i hi hlt => ?_⟩
      rcases Nat.lt_succ_iff_lt_or_eq.1 hlt with hlt | rfl
      · exact hlast i hi hlt
      · rw [hc]
        exact fun heq => hne (List.mem_singleton.2 (Option.some.inj heq).symm)

theorem stands_of_le (hn : n ≤ text.length) : Stands text n (lineAt text n) (columnAt text n) where
  line := by
    rw [lineAt]
    omega
  column := by
    refine ⟨_, isLineStart_lastLineEnd hn, ?_⟩
    have := Lexer.columnAt_add_lastLineEnd hn
    omega

theorem locates_stretch (hn : n ≤ text.length) (hm : m ≤ text.length) :
    Locates text file n m (stretch text file n m) :=
  ⟨rfl, stands_of_le hn, stands_of_le hm⟩

namespace Buffer

/-! ### Operations -/

/-- An operation on a buffer. -/
inductive Op where
  /-- Read one character. -/
  | step
  /-- Remember that a match ends here. -/
  | mark
  /-- Hand out the text up to the mark. -/
  | extract
  /-- Ask for the position. -/
  | pos
  /-- Ask for the character at the root. -/
  | current
  /-- Go back to the start of the text. -/
  | reset
  /-- Map symbols to classes from now on. -/
  | mapTo (classes : SymbolClasses)

/-- What an operation reports. -/
inductive Report where
  /-- The symbol of a character that has been read. -/
  | symbol (s : Option Nat)
  /-- There is nothing more to be read. -/
  | endOfFile
  /-- A text that is handed out, with its position. -/
  | extracted (text : String) (position : Position)
  /-- A position. -/
  | position (p : Position)
  /-- A character; empty at the end of the text. -/
  | char (c : String)
  /-- The buffer has gone back to the start. -/
  | restarted
  /-- Nothing. -/
  | done

/-- Perform an operation. -/
def perform (b : Buffer) : Op → Report × Buffer
  | .step =>
    match b.step with
    | some (s, after) => (.symbol s, after)
    | none => (.endOfFile, b)
  | .mark => (.done, b.setMark)
  | .extract =>
    let (text, position, after) := b.extract
    (.extracted text position, after)
  | .pos => (.position b.position, b)
  | .current => (.char b.current, b)
  | .reset => (.restarted, b.reset)
  | .mapTo classes => (.done, b.mapTo classes)

/-- The buffer after some operations. -/
def after (b : Buffer) : List Op → Buffer
  | [] => b
  | op :: ops => (b.perform op).2.after ops

/-- What operations report, each with the buffer that it was performed on. -/
def run (b : Buffer) : List Op → List (Buffer × Report)
  | [] => []
  | op :: ops => (b, (b.perform op).1) :: (b.perform op).2.run ops

theorem after_append (b : Buffer) (ops ops' : List Op) :
    b.after (ops ++ ops') = (b.after ops).after ops' := by
  induction ops generalizing b with
  | nil => rfl
  | cons op ops ih => exact ih _

theorem run_append (b : Buffer) (ops ops' : List Op) :
    b.run (ops ++ ops') = b.run ops ++ (b.after ops).run ops' := by
  induction ops generalizing b with
  | nil => rfl
  | cons op ops ih => exact congrArg (_ :: ·) (ih _)

/-- What has been handed out since the last restart, one report later. -/
def Report.handed (before : List Char) : Report → List Char
  | .extracted text _ => before ++ text.toList
  | .restarted => []
  | _ => before

/-- What has been handed out since the last restart. -/
def handedOut (reports : List Report) : List Char := reports.foldl Report.handed []

/-! ### Accounts -/

/-- A report is right about the buffer that an operation was performed on. -/
def Report.Right (text : List Char) (file : String) (b : Buffer) : Report → Prop
  | .symbol s => ∃ c, text[b.pos]? = some c ∧ s = b.symbol c
  | .endOfFile => b.pos = text.length
  | .extracted handed p =>
    handed = String.ofList ((text.take b.mark).drop b.root) ∧ Locates text file b.root b.mark p
  | .position p => Locates text file b.root b.root p
  | .char c => c = String.ofList ((text.drop b.root).take 1)
  | .restarted | .done => True

/-- A buffer of a text knows the line of its root, and what it has handed out is the text before the
root. -/
structure Accounted (text : List Char) (file : String) (handed : List Char) (b : Buffer) :
    Prop where
  counts : Lexer.Counts text file b
  handed : handed = text.take b.root

namespace Accounted

variable {handed : List Char} {b b' : Buffer}

theorem of_sameRoot (h : Accounted text file handed b) (hsame : SameRoot b b') :
    Accounted text file handed b' :=
  ⟨h.counts.of_sameRoot hsame, hsame.root ▸ h.handed⟩

theorem mapTo (h : Accounted text file handed b) (classes : SymbolClasses) :
    Accounted text file handed (b.mapTo classes) :=
  ⟨⟨h.counts.chars, h.counts.file, h.counts.line, h.counts.lineStart⟩, h.handed⟩

theorem reset (h : Accounted text file handed b) : Accounted text file [] b.reset :=
  ⟨⟨h.counts.chars, h.counts.file, by simp [Buffer.reset, lineAt], rfl⟩, rfl⟩

/-- **One operation keeps the accounts**, and what it reports is right. -/
theorem perform (h : Accounted text file handed b) (op : Op) :
    Accounted text file ((b.perform op).1.handed handed) (b.perform op).2 ∧
      (b.perform op).1.Right text file b := by
  have hcounts := h.counts
  cases op with
  | step =>
    rw [Buffer.perform]
    split
    · rename_i s after hstep
      obtain ⟨hsame, -, -, c, hc, hs⟩ := step_reads hstep
      refine ⟨h.of_sameRoot hsame, c, ?_, hs⟩
      have hle : b.root ≤ b.pos := b.root_le_mark.trans b.mark_le_pos
      rw [ahead, hcounts.chars, List.getElem?_drop, Nat.add_sub_cancel' hle] at hc
      exact hc
    · rename_i hstep
      refine ⟨h, ?_⟩
      have hlen := length_ahead_of_step hstep
      have hle : b.root ≤ b.pos := b.root_le_mark.trans b.mark_le_pos
      have hpos := hcounts.pos_le
      rw [ahead, hcounts.chars, List.length_drop] at hlen
      show b.pos = text.length
      omega
  | mark => exact ⟨h.of_sameRoot ⟨rfl, rfl, rfl, rfl, rfl, rfl⟩, trivial⟩
  | extract =>
    have htext : (text.take b.mark).drop b.root = (text.drop b.root).take (b.mark - b.root) :=
      List.drop_take ..
    rw [Buffer.perform, hcounts.extract]
    refine ⟨⟨hcounts.advance, ?_⟩, ?_, locates_stretch hcounts.root_le hcounts.mark_le⟩
    · show handed ++ (String.ofList _).toList = text.take b.mark
      rw [h.handed, String.toList_ofList, ← htext]
      nth_rewrite 1 [← Nat.min_eq_left b.root_le_mark]
      rw [← List.take_take, List.take_append_drop]
    · rw [htext]
  | pos =>
    refine ⟨h, ?_⟩
    show Locates text file b.root b.root b.position
    rw [hcounts.position]
    exact locates_stretch hcounts.root_le hcounts.root_le
  | current =>
    refine ⟨h, ?_⟩
    show b.current = _
    rw [current, Array.toList_extract, hcounts.chars, List.extract_eq_take_drop,
      Nat.add_sub_cancel_left]
  | reset => exact ⟨h.reset, trivial⟩
  | mapTo classes => exact ⟨h.mapTo classes, trivial⟩

/-- **Any operations keep the accounts**, and what they report is right. -/
theorem run (h : Accounted text file handed b) (ops : List Op) :
    Accounted text file (((b.run ops).map (·.2)).foldl Report.handed handed) (b.after ops) ∧
      ∀ p ∈ b.run ops, p.2.Right text file p.1 := by
  induction ops generalizing handed b with
  | nil => exact ⟨h, nofun⟩
  | cons op ops ih =>
    obtain ⟨hafter, hright⟩ := h.perform op
    obtain ⟨hrest, hrights⟩ := ih hafter
    exact ⟨hrest, List.forall_mem_cons.2 ⟨hright, hrights⟩⟩

end Accounted

/-- What holds of a text after operations on a buffer of it: the offsets are in order, what has been
handed out since the last restart is the text before the root, and all that has been reported is
right. -/
structure Accounts (text : List Char) (file : String) (ops : List Op) (b : Buffer) : Prop where
  chars : b.text.toList = text
  root_le_mark : b.root ≤ b.mark
  mark_le_pos : b.mark ≤ b.pos
  pos_le_size : b.pos ≤ b.size
  size : b.size = text.length
  handed : handedOut (((ofText text file).run ops).map (·.2)) = text.take b.root
  reports : ∀ p ∈ (ofText text file).run ops, p.2.Right text file p.1

/-- A buffer keeps its accounts from the start of a text on. -/
theorem accounts_after (text : List Char) (file : String) (ops : List Op) :
    Accounts text file ops ((ofText text file).after ops) := by
  have hstart : Accounted text file [] (ofText text file) := ⟨Lexer.counts_ofText text file, rfl⟩
  obtain ⟨hafter, hreports⟩ := hstart.run ops
  generalize (ofText text file).after ops = b at hafter
  exact ⟨hafter.counts.chars, b.root_le_mark, b.mark_le_pos, b.pos_le_size,
    by rw [size, ← hafter.counts.chars, Array.length_toList], hafter.handed, hreports⟩

/-- **The position that is asked for does not end at the mark.** After a character has been read and
marked, the position is still that of the root. -/
theorem not_locates_position :
    let start := ofText ['a', 'b'] "<string>"
    let b := start.after [.step, .mark]
    ∃ p, (b, .position p) ∈ start.run [.step, .mark, .pos] ∧
      ¬ Locates ['a', 'b'] "<string>" b.root b.mark p := by
  refine ⟨_, List.mem_of_getElem? (i := 2) rfl, fun h => ?_⟩
  obtain ⟨start, hstart, hcolumn⟩ := h.last.column
  have hcolumn : (0 : Int) = 1 - start := hcolumn
  -- the column would make a line start behind the first character
  obtain rfl : start = 1 := by omega
  obtain hzero | ⟨before, hbefore, hfeed⟩ := hstart.starts
  · cases hzero
  · obtain rfl : before = 0 := by omega
    exact absurd hfeed (by decide)

end Buffer

end LexParse
