import LexParse.Scan.Lexer
import LexParse.Scan.Longest

/-!
# Maximal munch

What a scanner is to hand out, said without a table, a buffer or a mark. At each offset of the text
the longest match is taken, by the first rule that makes it; the rule says whether a token is
emitted, the text is dropped or the input ends there. Where nothing matches, the scan ends with a
fault that names the character.

Lines and columns are counted in the text before an offset, not kept from token to token.

## What is proved

* `Munches.unique`: there is at most one way to read a text.
-/

namespace LexParse

/-! ### Positions -/

/-- The line of an offset: one more than the line feeds before it. -/
def lineAt (text : List Char) (n : Nat) : Nat := (text.take n).count '\n' + 1

/-- The column of an offset: the characters between it and the last line feed before it. -/
def columnAt (text : List Char) (n : Nat) : Nat :=
  ((text.take n).reverse.takeWhile (· ≠ '\n')).length

/-- The position of the text between two offsets. -/
def stretch (text : List Char) (file : String) (n m : Nat) : Position :=
  ⟨file, lineAt text n, columnAt text n, lineAt text m, columnAt text m⟩

/-! ### Tokens -/

/-- The payload of a kind, if it is declared with one. -/
def payloadIn (kinds : List TokenKind) (kind : String) : Option Payload :=
  (kinds.find? (·.name == kind)).bind (·.payload)

/-- What is handed out for a match: a token with the value of its text, nothing when the match is
dropped, or the end of the input. -/
def handOut (kinds : List TokenKind) (text : String) (position : Position) :
    ScanAction → Option (Except ScanFault Token)
  | .emit kind =>
    some (match valueBy (payloadIn kinds kind) text with
      | .ok value => .ok ⟨kind, value, text, position⟩
      | .error fault => .error (.payload fault))
  | .skip => none
  | .finish => some (.ok (.endOfInput position))

section

variable (alphabet : Alphabet) (rules : List ScanRule) (kinds : List TokenKind) (text : List Char)
  (file : String)

/-- The longest match from an offset on: its length and what is handed out for it. -/
def Takes (n len : Nat) (result : Option (Except ScanFault Token)) : Prop :=
  ∃ i r, IsLongest alphabet rules (text.drop n) len i ∧ rules[i]? = some r ∧
    result = handOut kinds (String.ofList ((text.drop n).take len))
      (stretch text file n (n + len)) r.action

/-- The tokens from an offset on up to the first one that ends the stream, and the fault if they
are cut short by one. -/
inductive Munches : Nat → List Token → Option ScanFault → Prop where
  /-- All of the text has been read. -/
  | done : Munches text.length [.endOfInput (stretch text file text.length text.length)] none
  /-- No rule matches here. -/
  | stuck {n : Nat} {c : Char} : text[n]? = some c →
      (∀ len i, ¬ IsMatch alphabet rules (text.drop n) len i) →
      Munches n [] (some (.noMatch (String.ofList [c]) (stretch text file n n)))
  /-- The match is dropped. -/
  | drop {n len : Nat} {tokens : List Token} {fault : Option ScanFault} :
      Takes alphabet rules kinds text file n len none → Munches (n + len) tokens fault →
      Munches n tokens fault
  /-- The match is a token, and reading goes on behind it. -/
  | token {n len : Nat} {token : Token} {tokens : List Token} {fault : Option ScanFault} :
      Takes alphabet rules kinds text file n len (some (.ok token)) → token.isEnd = false →
      Munches (n + len) tokens fault → Munches n (token :: tokens) fault
  /-- The match is a token that ends the stream. -/
  | last {n len : Nat} {token : Token} :
      Takes alphabet rules kinds text file n len (some (.ok token)) → token.isEnd = true →
      Munches n [token] none
  /-- The text that is matched has no value. -/
  | fault {n len : Nat} {fault : ScanFault} :
      Takes alphabet rules kinds text file n len (some (.error fault)) →
      Munches n [] (some fault)

end

variable {alphabet : Alphabet} {rules : List ScanRule} {kinds : List TokenKind} {text : List Char}
  {file : String} {n len len' : Nat} {result result' : Option (Except ScanFault Token)}

/-- One match is taken at most. -/
theorem Takes.unique (h : Takes alphabet rules kinds text file n len result)
    (h' : Takes alphabet rules kinds text file n len' result') : len = len' ∧ result = result' := by
  obtain ⟨i, r, hlong, hr, rfl⟩ := h
  obtain ⟨j, r', hlong', hr', rfl⟩ := h'
  obtain ⟨rfl, rfl⟩ := hlong.unique hlong'
  obtain rfl := Option.some.inj (hr.symm.trans hr')
  exact ⟨rfl, rfl⟩

theorem Takes.ne_length (h : Takes alphabet rules kinds text file n len result) :
    n ≠ text.length := by
  obtain ⟨i, r, hlong, -⟩ := h
  have hpos := hlong.isMatch.pos
  have hle := hlong.isMatch.le_length
  rw [List.length_drop] at hle
  omega

/-- No match is taken where there is none. -/
theorem Takes.exists_isMatch (h : Takes alphabet rules kinds text file n len result) :
    ∃ len i, IsMatch alphabet rules (text.drop n) len i := by
  obtain ⟨i, r, hlong, -⟩ := h
  exact ⟨len, i, hlong.isMatch⟩

variable {tokens tokens' : List Token} {fault fault' : Option ScanFault}

/-- How a reading goes on from a match. -/
theorem Munches.of_takes (h : Munches alphabet rules kinds text file n tokens fault)
    (ht : Takes alphabet rules kinds text file n len result) :
    (result = none ∧ Munches alphabet rules kinds text file (n + len) tokens fault) ∨
    (∃ token rest, result = some (.ok token) ∧ token.isEnd = false ∧ tokens = token :: rest ∧
      Munches alphabet rules kinds text file (n + len) rest fault) ∨
    (∃ token, result = some (.ok token) ∧ token.isEnd = true ∧ tokens = [token] ∧ fault = none) ∨
    ∃ e, result = some (.error e) ∧ tokens = [] ∧ fault = some e := by
  cases h with
  | done => exact absurd rfl ht.ne_length
  | stuck _ hno =>
    obtain ⟨len, i, hmatch⟩ := ht.exists_isMatch
    exact absurd hmatch (hno len i)
  | drop ht' hrest =>
    obtain ⟨rfl, rfl⟩ := ht.unique ht'
    exact .inl ⟨rfl, hrest⟩
  | token ht' hend hrest =>
    obtain ⟨rfl, rfl⟩ := ht.unique ht'
    exact .inr (.inl ⟨_, _, rfl, hend, rfl, hrest⟩)
  | last ht' hend =>
    obtain ⟨rfl, rfl⟩ := ht.unique ht'
    exact .inr (.inr (.inl ⟨_, rfl, hend, rfl, rfl⟩))
  | fault ht' =>
    obtain ⟨rfl, rfl⟩ := ht.unique ht'
    exact .inr (.inr (.inr ⟨_, rfl, rfl, rfl⟩))

/-- **There is at most one way to read a text.** -/
theorem Munches.unique (h : Munches alphabet rules kinds text file n tokens fault)
    (h' : Munches alphabet rules kinds text file n tokens' fault') :
    tokens = tokens' ∧ fault = fault' := by
  -- the second reading starts with the same match as the first, and that says how it goes on
  induction h generalizing tokens' fault' with
  | done =>
    cases h' with
    | done => exact ⟨rfl, rfl⟩
    | stuck hc => simp at hc
    | drop ht | token ht | last ht | fault ht => exact absurd rfl ht.ne_length
  | stuck hc hno =>
    cases h' with
    | done => simp at hc
    | stuck hc' =>
      obtain rfl := Option.some.inj (hc.symm.trans hc')
      exact ⟨rfl, rfl⟩
    | drop ht | token ht | last ht | fault ht =>
      obtain ⟨len, i, hmatch⟩ := ht.exists_isMatch
      exact absurd hmatch (hno len i)
  | drop ht _ ih =>
    obtain ⟨-, hrest⟩ | ⟨_, _, hr, -⟩ | ⟨_, hr, -⟩ | ⟨_, hr, -⟩ := h'.of_takes ht
    · exact ih hrest
    all_goals cases hr
  | token ht hend _ ih =>
    obtain ⟨hr, -⟩ | ⟨_, _, hr, -, rfl, hrest⟩ | ⟨_, hr, hend', -⟩ | ⟨_, hr, -⟩ := h'.of_takes ht
    · cases hr
    · cases hr
      obtain ⟨rfl, rfl⟩ := ih hrest
      exact ⟨rfl, rfl⟩
    · cases hr
      cases hend.symm.trans hend'
    · cases hr
  | last ht hend =>
    obtain ⟨hr, -⟩ | ⟨_, _, hr, hend', -⟩ | ⟨_, hr, -, rfl, rfl⟩ | ⟨_, hr, -⟩ := h'.of_takes ht
    · cases hr
    · cases hr
      cases hend.symm.trans hend'
    · cases hr
      exact ⟨rfl, rfl⟩
    · cases hr
  | fault ht =>
    obtain ⟨hr, -⟩ | ⟨_, _, hr, -⟩ | ⟨_, hr, -⟩ | ⟨_, hr, rfl, rfl⟩ := h'.of_takes ht
    · cases hr
    · cases hr
    · cases hr
    · cases hr
      exact ⟨rfl, rfl⟩

end LexParse
