import LexParse.Proofs.Description.Patterns
import LexParse.Proofs.Scan.Sharing

/-!
# Scanning makes progress

A search for the next token has no bound of its own: it drops texts and goes on. It ends since a
match is only ever marked behind a character that has been read, so each text that is handed out,
dropped or not, takes at least one character off what remains. This does not depend on where the
buffer stands when the search begins, so it holds after faults, for lexers that share a buffer, and
for rules that match the empty text, whose empty matches are never taken.

A stream of tokens ends for the same reason: each token but the last one takes up a character.

## What is proved

* `Lexer.length_searchOps_le`: a search ends after a number of operations that is bounded by what
  remains.
* `Lexer.ne_empty_of_extracted`: no text that a search hands out is empty.
* `Lexer.streams_iff`: a stream of tokens ends, with the token that ends it or with a fault.
* `Description.lexing_progresses`: the same for the lexers of a description, and which rules are
  listed for matching the empty text.
-/

namespace LexParse

/-! ### Operations that hand out nothing -/

namespace Buffer

variable {b : Buffer} {op : Op} {ops : List Op} {p : Buffer × Report} {text : String}
  {position : Position}

theorem perform_eq_extracted (h : (b.perform op).1 = .extracted text position) :
    op = .extract ∧ text = String.ofList b.marked := by
  cases op with
  | extract =>
    cases h
    exact ⟨rfl, rfl⟩
  | step =>
    rw [perform] at h
    split at h <;> cases h
  | mark | pos | current | reset | mapTo => cases h

theorem exists_perform_of_mem_run (h : p ∈ b.run ops) : ∃ op ∈ ops, p.2 = (p.1.perform op).1 := by
  induction ops generalizing b with
  | nil => cases h
  | cons op ops ih =>
    rcases List.mem_cons.1 h with rfl | h
    · exact ⟨op, List.mem_cons_self .., rfl⟩
    · obtain ⟨op', hop', heq⟩ := ih h
      exact ⟨op', List.mem_cons_of_mem _ hop', heq⟩

/-- The marked text is not empty if the mark is behind the root. -/
theorem marked_ne_nil (h : b.root < b.mark) : b.marked ≠ [] := by
  have hle := b.mark_le_pos.trans b.pos_le_size
  have hlength : b.marked.length = b.mark - b.root := by
    rw [marked, Array.length_toList, Array.size_extract, Nat.min_eq_left hle]
  intro hnil
  rw [hnil, List.length_nil] at hlength
  omega

end Buffer

namespace Lexer

variable {table : ScanTable} {state : Nat} {b b' : Buffer} {rule : Nat} {ops : List Buffer.Op}

/-! ### One round of a search -/

/-- A match ends behind the root, which has not been moved. -/
theorem root_lt_mark_of_scan
    (h : scan table table.automaton.start none b = (.ok (some rule), b')) :
    b'.root = b.root ∧ b'.text = b.text ∧ b.root < b'.mark := by
  obtain ⟨hroot, htext, hmark⟩ := @scan_root table table.automaton.start none b (by simp)
  rw [h] at hroot htext hmark
  exact ⟨hroot, htext, hmark rule rfl⟩

/-- Handing out a match leaves fewer characters. -/
theorem remaining_advance_lt
    (h : scan table table.automaton.start none b = (.ok (some rule), b')) :
    b'.advance.remaining < b.remaining := by
  obtain ⟨-, htext, hlt⟩ := root_lt_mark_of_scan h
  have hle := b'.mark_le_pos.trans b'.pos_le_size
  rw [htext] at hle
  rw [Buffer.remaining, Buffer.remaining, Buffer.text_advance, Buffer.root_advance, htext]
  omega

/-- What a search does behind its first scan: nothing where there is a fault, two reports where
nothing matches, and otherwise it hands out the match and stops or begins again. -/
inductive Round (table : ScanTable) (b : Buffer) : List Buffer.Op → Prop where
  /-- The scan has had a fault. -/
  | fault {fault : ScanFault} {b' : Buffer} :
      scan table table.automaton.start none b = (.error fault, b') → Round table b []
  /-- Nothing matches. -/
  | stuck {b' : Buffer} :
      scan table table.automaton.start none b = (.ok none, b') → Round table b [.current, .pos]
  /-- The match is an answer. -/
  | answer {rule : Nat} {b' : Buffer} :
      scan table table.automaton.start none b = (.ok (some rule), b') → Round table b [.extract]
  /-- The match is dropped. -/
  | dropped {rule : Nat} {b' : Buffer} :
      scan table table.automaton.start none b = (.ok (some rule), b') →
      Round table b (.extract :: searchOps table b'.advance)

theorem exists_round (table : ScanTable) (hend : ¬ b.atEnd = true) : ∃ ops, Round table b ops ∧
    searchOps table b = scanOps table table.automaton.start b ++ ops := by
  match hscan : scan table table.automaton.start none b with
  | (.error _, _) => exact ⟨_, .fault hscan, by simpa using searchOps_of_error hend hscan⟩
  | (.ok none, _) => exact ⟨_, .stuck hscan, searchOps_of_none hend hscan⟩
  | (.ok (some rule), b') =>
    have hops := searchOps_of_some hend hscan
    split at hops
    · exact ⟨_, .dropped hscan, hops⟩
    · exact ⟨_, .answer hscan, hops⟩

/-! ### A search ends -/

/-- A scan reads each character once and marks at most once behind it. -/
theorem length_scanOps_le (table : ScanTable) (state : Nat) (b : Buffer) :
    (scanOps table state b).length ≤ 2 * (b.text.size - b.pos) + 1 := by
  fun_induction scanOps table state b with
  | case1 | case2 | case3 | case4 => simp
  | case5 _ _ _ _ _ hs _ _ _ _ _ ih =>
    rw [Buffer.text_setMark, Buffer.pos_setMark, hs.2.2.2.2, hs.2.1] at ih
    simp only [List.length_cons]
    omega
  | case6 _ _ _ _ _ hs _ _ _ _ ih =>
    rw [hs.2.2.2.2, hs.2.1] at ih
    simp only [List.length_cons]
    omega

theorem length_scanOps_le_remaining (table : ScanTable) (state : Nat) (b : Buffer) :
    (scanOps table state b).length ≤ 2 * b.remaining + 1 := by
  have hlength := length_scanOps_le table state b
  have hpos := b.root_le_mark.trans b.mark_le_pos
  rw [Buffer.remaining]
  omega

/-- **A search ends**: it does not perform more operations than what remains allows. -/
theorem length_searchOps_le (table : ScanTable) (b : Buffer) :
    (searchOps table b).length ≤ (b.remaining + 1) * (2 * b.remaining + 3) := by
  fun_induction searchOps table b with
  | case1 b hend => exact Nat.mul_pos (Nat.succ_pos _) (Nat.succ_pos _)
  | case2 b hend ih =>
    have hscan := length_scanOps_le_remaining table table.automaton.start b
    obtain ⟨ops, hround, hops⟩ := exists_round table hend
    rw [searchOps, if_neg hend] at hops
    rw [hops, List.length_append]
    have hbound : (b.remaining + 1) * (2 * b.remaining + 3) =
        b.remaining * (2 * b.remaining + 3) + (2 * b.remaining + 3) := Nat.succ_mul ..
    cases hround with
    | fault | stuck | answer =>
      simp only [List.length_cons, List.length_nil]
      omega
    | @dropped rule b' hmatch =>
      have hrest := ih _ _ hmatch
      have hlt := remaining_advance_lt hmatch
      have hless : (b'.advance.remaining + 1) * (2 * b'.advance.remaining + 3) ≤
          b.remaining * (2 * b.remaining + 3) := Nat.mul_le_mul hlt (by omega)
      rw [List.length_cons]
      omega

/-! ### No text is empty -/

theorem mem_scanOps {op : Buffer.Op} (h : op ∈ scanOps table state b) :
    op = .step ∨ op = .mark := by
  fun_induction scanOps table state b with
  | case1 | case2 | case3 | case4 => exact .inl (List.mem_singleton.1 h)
  | case5 _ _ _ _ _ _ _ _ _ _ _ ih =>
    rcases List.mem_cons.1 h with rfl | h
    · exact .inl rfl
    · rcases List.mem_cons.1 h with rfl | h
      · exact .inr rfl
      · exact ih h
  | case6 _ _ _ _ _ _ _ _ _ _ ih =>
    rcases List.mem_cons.1 h with rfl | h
    · exact .inl rfl
    · exact ih h

theorem ne_empty_of_scan {text : String} {position : Position}
    (hscan : scan table table.automaton.start none b = (.ok (some rule), b'))
    (h : (b'.perform .extract).1 = .extracted text position) : text ≠ "" := by
  obtain ⟨-, rfl⟩ := Buffer.perform_eq_extracted h
  obtain ⟨hroot, -, hlt⟩ := root_lt_mark_of_scan hscan
  intro hempty
  exact Buffer.marked_ne_nil (hroot ▸ hlt) (by simpa using hempty)

/-- **No text is empty** that a search hands out, whether it is dropped or not. -/
theorem ne_empty_of_extracted {p : Buffer × Buffer.Report} {text : String} {position : Position}
    (hp : p ∈ b.run (searchOps table b)) (hreport : p.2 = .extracted text position) :
    text ≠ "" := by
  fun_induction searchOps table b with
  | case1 b hend =>
    obtain rfl := List.mem_singleton.1 hp
    cases hreport
  | case2 b hend ih =>
    obtain ⟨ops, hround, hops⟩ := exists_round table hend
    rw [searchOps, if_neg hend] at hops
    rw [hops, Buffer.run_append] at hp
    rcases List.mem_append.1 hp with hp | hp
    · -- a scan hands out nothing
      obtain ⟨op, hop, heq⟩ := Buffer.exists_perform_of_mem_run hp
      obtain ⟨rfl, -⟩ := Buffer.perform_eq_extracted (heq.symm.trans hreport)
      rcases mem_scanOps hop with h | h <;> cases h
    · cases hround with
      | fault => cases hp
      | stuck hscan =>
        obtain ⟨op, hop, heq⟩ := Buffer.exists_perform_of_mem_run hp
        obtain ⟨rfl, -⟩ := Buffer.perform_eq_extracted (heq.symm.trans hreport)
        simp at hop
      | answer hscan =>
        rw [after_scanOps_eq hscan] at hp
        obtain rfl := List.mem_singleton.1 hp
        exact ne_empty_of_scan hscan hreport
      | dropped hscan =>
        rw [after_scanOps_eq hscan] at hp
        rcases List.mem_cons.1 hp with rfl | hp
        · exact ne_empty_of_scan hscan hreport
        · exact ih _ _ hscan hp

theorem length_nextOps_le (l : Lexer) : l.nextOps.length ≤
    (l.buffer.remaining + 1) * (2 * l.buffer.remaining + 3) := by
  rw [nextOps]
  split
  · exact Nat.zero_le _
  · exact length_searchOps_le l.table l.buffer

theorem ne_empty_of_mem_nextOps (l : Lexer) {text : String} {position : Position}
    (h : (b, .extracted text position) ∈ l.buffer.run l.nextOps) : text ≠ "" := by
  rw [nextOps] at h
  split at h
  · cases h
  · exact ne_empty_of_extracted h rfl

/-! ### A stream of tokens ends -/

/-- A token that does not end the stream leaves fewer characters. -/
theorem search_remaining_lt {token : Token} (h : (search table b).1 = .ok token)
    (hend : token.isEnd = false) : (search table b).2.1.remaining < b.remaining := by
  fun_induction search table b with
  | case1 =>
    cases h
    cases hend
  | case2 | case3 | case5 => cases h
  | case4 b _ rule b' hscan _ _ _ _ _ _ hextract =>
    cases hextract
    exact remaining_advance_lt hscan
  | case6 =>
    cases h
    cases hend
  | case7 b _ rule b' hscan _ _ ih => exact (ih h).trans (remaining_advance_lt hscan)

variable {l l' l'' : Lexer} {token : Token} {tokens tokens' : List Token}
  {fault fault' : Option ScanFault}

theorem next_remaining_lt (h : l.next = (.ok token, l')) (hend : token.isEnd = false) :
    l'.buffer.remaining < l.buffer.remaining := by
  rw [next] at h
  split at h
  · cases h
  · obtain ⟨hresult, rfl⟩ := Prod.mk.inj h
    exact search_remaining_lt hresult hend

/-- Tokens are asked for one after the other until one ends the stream or there is a fault; with
what has been handed out, and the lexer that is left. -/
inductive Streams : Lexer → List Token → Option ScanFault → Lexer → Prop where
  /-- There is a fault. -/
  | fault {l l' : Lexer} {fault : ScanFault} :
      l.next = (.error fault, l') → Streams l [] (some fault) l'
  /-- The stream ends. -/
  | last {l l' : Lexer} {token : Token} :
      l.next = (.ok token, l') → token.isEnd = true → Streams l [token] none l'
  /-- The stream goes on. -/
  | token {l l' l'' : Lexer} {token : Token} {tokens : List Token} {fault : Option ScanFault} :
      l.next = (.ok token, l') → token.isEnd = false → Streams l' tokens fault l'' →
      Streams l (token :: tokens) fault l''

theorem Streams.unique (h : Streams l tokens fault l') (h' : Streams l tokens' fault' l'') :
    tokens = tokens' ∧ fault = fault' ∧ l' = l'' := by
  induction h generalizing tokens' with
  | fault hnext =>
    cases h' <;> simp_all
  | last hnext hend =>
    cases h' <;> simp_all
  | token hnext hend _ ih =>
    cases h' with
    | fault hnext' => simp_all
    | last hnext' hend' => simp_all
    | token hnext' _ hrest =>
      rw [hnext] at hnext'
      cases hnext'
      obtain ⟨rfl, rfl, rfl⟩ := ih hrest
      exact ⟨rfl, rfl, rfl⟩

/-- A stream has at most one token for each character, and one that ends it. -/
theorem Streams.length_le (h : Streams l tokens fault l') :
    tokens.length ≤ l.buffer.remaining + 1 := by
  induction h with
  | fault => simp
  | last => simp
  | token hnext hend _ ih =>
    have := next_remaining_lt hnext hend
    rw [List.length_cons]
    omega

/-- What a stream ends with: the token that ends it is the last one, unless there is a fault behind
the tokens. -/
def Ended (tokens : List Token) : Option ScanFault → Prop
  | none => ∃ before last, tokens = before ++ [last] ∧ last.isEnd = true ∧
      ∀ t ∈ before, t.isEnd = false
  | some _ => ∀ t ∈ tokens, t.isEnd = false

theorem Ended.cons (h : Ended tokens fault) (hend : token.isEnd = false) :
    Ended (token :: tokens) fault := by
  cases fault with
  | none =>
    obtain ⟨before, last, rfl, hlast, hall⟩ := h
    exact ⟨token :: before, last, rfl, hlast, List.forall_mem_cons.2 ⟨hend, hall⟩⟩
  | some _ => exact List.forall_mem_cons.2 ⟨hend, h⟩

theorem Streams.ended (h : Streams l tokens fault l') : Ended tokens fault := by
  induction h with
  | fault => exact nofun
  | @last _ _ token _ hend => exact ⟨[], token, rfl, hend, nofun⟩
  | token _ hend _ ih => exact ih.cons hend

theorem streams_tokensFrom {steps : Nat} (h : l.buffer.remaining < steps) :
    Streams l (tokensFrom steps l).1 (tokensFrom steps l).2.1 (tokensFrom steps l).2.2 := by
  induction steps generalizing l with
  | zero => cases h
  | succ steps ih =>
    rw [tokensFrom]
    split
    · rename_i fault l' hnext
      exact .fault hnext
    · rename_i token l' hnext
      split
      · rename_i hend
        exact .last hnext hend
      · rename_i hend
        have hend : token.isEnd = false := by simpa using hend
        have hlt := next_remaining_lt hnext hend
        exact .token hnext hend (ih (by omega))

/-- **A stream of tokens ends**, in one way: with the tokens that the lexer has left. -/
theorem streams_iff : Streams l tokens fault l' ↔ l.tokens = (tokens, fault, l') := by
  have htokens := streams_tokensFrom (Nat.lt_succ_self l.buffer.remaining)
  constructor
  · intro h
    obtain ⟨htoks, hfault, hl⟩ := htokens.unique h
    exact Prod.ext htoks (Prod.ext hfault hl)
  · intro h
    rw [Lexer.tokens] at h
    rw [h] at htokens
    exact htokens

end Lexer

/-! ### The lexers of a description -/

namespace Description

open Classical in
/-- The rules that are listed for matching the empty text are those that do, in their order. -/
theorem emptyMatching_eq_filter {rules : List ScanRule} (h : Buildable rules) :
    (emptyMatching rules).map (·.2) =
      rules.filter fun rule => decide (rule.pattern.Matches (fun _ _ => False) []) := by
  have hanswer : ∀ rule ∈ rules, (rule.pattern.matchesEmpty? == some true) =
      decide (rule.pattern.Matches (fun _ _ => False) []) := by
    intro rule hrule
    obtain ⟨answer, hanswer⟩ := h.matchesEmpty? rule hrule
    have hmatches : answer = true ↔ rule.pattern.Matches (fun _ _ => False) [] :=
      Regex.matchesEmpty?_iff hanswer
    rw [hanswer]
    cases answer <;> simp_all
  have hrules : (rules.mapIdx fun i rule => (i, rule)).map (·.2) = rules :=
    List.ext_getElem (by simp) (by simp)
  rw [← List.filter_congr hanswer]
  nth_rewrite 2 [← hrules]
  rw [List.filter_map]
  rfl

open Classical in
/-- **Scanning makes progress.** Of the rules of a description those are listed for matching the
empty text that do, in their order. And whatever the table of a lexer, however its buffer stands and
whoever has worked on that before: a request for a token is answered after a number of operations
that what remains of the text bounds; none of the texts that are handed out on the way, dropped or
not, is empty; and the stream of tokens ends, after at most one token for each character and the one
that ends it, or else with a fault. -/
theorem lexing_progresses {d : Description} {options : Options} {journal : Journal}
    {table : ScanTable} {empties : List ScanRule}
    (h : ((d.scanTable options).run journal).1 = .ok (table, empties)) :
    (∃ rules, d.resolveRules = .ok rules ∧ empties =
      rules.filter fun rule => decide (rule.pattern.Matches (fun _ _ => False) [])) ∧
    ∀ l : Lexer,
      (l.next.2.buffer = l.buffer.after l.nextOps ∧
        Lexer.Answers (l.buffer.run l.nextOps) l.next.1 ∧
        l.nextOps.length ≤ (l.buffer.remaining + 1) * (2 * l.buffer.remaining + 3)) ∧
      (∀ b text position, (b, .extracted text position) ∈ l.buffer.run l.nextOps → text ≠ "") ∧
      (∀ tokens fault l', Lexer.Streams l tokens fault l' ↔ l.tokens = (tokens, fault, l')) ∧
      l.tokens.1.length ≤ l.buffer.remaining + 1 ∧ Lexer.Ended l.tokens.1 l.tokens.2.1 := by
  have houtcome := (d.yields_scanTable options journal).symm.trans h
  obtain ⟨-, rules, -, hrules, -, hempties, -⟩ := (d.scannerOutcome_eq_ok_iff options).1 houtcome
  rw [emptyMatching_eq_filter (buildable_of_resolveRules hrules)] at hempties
  refine ⟨⟨rules, hrules, hempties⟩, fun l => ?_⟩
  have hstream := Lexer.streams_iff.2 (rfl : l.tokens = _)
  refine ⟨⟨l.next_eq.1, l.next_eq.2, l.length_nextOps_le⟩, fun b text position hp => ?_,
    fun _ _ _ => Lexer.streams_iff, hstream.length_le, hstream.ended⟩
  exact l.ne_empty_of_mem_nextOps hp

/-- Blanks, any number of them, are dropped. -/
def blanksAndLetter : Description where
  rules := [⟨.star (.chars (.ofChar ' ')), .skip, " *"⟩, ⟨.chars (.ofChar 'a'), .emit "A", "a"⟩]

theorem resolveRules_blanksAndLetter :
    blanksAndLetter.resolveRules = .ok blanksAndLetter.rules := by
  rw [resolveRules_eq_mapM _ rfl]
  rfl

/-- A text that no rule matches, after a first scan has failed. -/
def stuck (table : ScanTable) : Lexer where
  table
  buffer :=
    { Buffer.ofText ['?', ' ', 'a'] "input" with
      classes := some table.classes, pos := 1, mark_le_pos := by decide, pos_le_size := by decide }

/-- A rule for any number of blanks is listed, and does not keep a lexer from going on. -/
theorem streams_stuck : ∃ table, ((blanksAndLetter.scanTable {}).run []).1 =
      .ok (table, [⟨.star (.chars (.ofChar ' ')), .skip, " *"⟩]) ∧
    ∃ tokens fault l', Lexer.Streams (stuck table) tokens fault l' ∧ tokens.length ≤ 4 := by
  have houtcome := (blanksAndLetter.scannerOutcome_eq_ok_iff {}).2
    ⟨.bytes, _, rfl, resolveRules_blanksAndLetter, by decide, rfl, rfl⟩
  have hscan := (blanksAndLetter.yields_scanTable {} []).trans houtcome
  obtain ⟨-, hlexers⟩ := lexing_progresses hscan
  obtain ⟨-, -, hstreams, hlength, -⟩ := hlexers (stuck _)
  exact ⟨_, hscan, _, _, _, (hstreams _ _ _).2 rfl, hlength⟩

end Description

end LexParse
