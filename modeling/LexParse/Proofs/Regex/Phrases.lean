import LexParse.Proofs.Regex.Words
import LexParse.Regex.Parse

/-!
# The phrases of the pattern notation

The notation of patterns has a grammar,

    pattern  ::=  chain | pattern '|' chain
    chain    ::=  nothing | chain item
    item     ::=  base | item postfix | item repetition
    base     ::=  set | name | '(' pattern ')'

and each phrase of it denotes a language. The reader does not follow the grammar: it goes through
the tokens once and keeps a stack of what it has read of the groups that are open. What is on the
stack is a phrase for each group, the last item of which can still grow by a postfix operator.

A repetition is not an operation that expressions have: it is written out, so its parts have to be
made, and that can fail. How many of them there is room for is a parameter.

## What is proved

* `Phrase.reads`: the reader accepts all phrases, and gives them the language they denote.
* `exists_phrase_of_parseFrom`: it accepts nothing else.
-/

namespace LexParse.Regex

/-! ### Counts -/

/-- The counts of a repetition stand for a range of numbers: from a least one on, up to a greatest
one if there is one. -/
inductive IsRange : List (Option Int) → Nat → Option Nat → Prop where
  /-- One count is the least and the greatest one. -/
  | exact (n : Nat) : IsRange [some n] n (some n)
  /-- A least count alone. -/
  | atLeast (n : Nat) : IsRange [some n, none] n none
  /-- A least and a greatest count. -/
  | between {n m : Nat} : n ≤ m → IsRange [some n, some m] n (some m)

/-- The parts of a repetition can be made: its copies can be counted, and there is room. -/
def Fits (room least : Nat) (most : Option Nat) : Prop :=
  least ≤ maxCopies ∧ partCount least most ≤ room

/-- The fault of a repetition whose parts cannot be made. -/
inductive Exceeds (room least : Nat) (most : Option Nat) : Fault → Prop where
  /-- The copies cannot be counted. -/
  | tooLarge : maxCopies < least → Exceeds room least most .countTooLarge
  /-- The parts do not fit into memory. -/
  | memory : least ≤ maxCopies → room < partCount least most →
      Exceeds room least most .outOfMemory

/-- A fault is one of the notation. -/
def Fault.Syntactic (fault : Fault) : Prop := fault ≠ .countTooLarge ∧ fault ≠ .outOfMemory

variable {room : Nat} {counts : List (Option Int)} {least least' : Nat} {most most' : Option Nat}
  {body r : Regex} {fault : Fault}

theorem IsRange.unique (h : IsRange counts least most) (h' : IsRange counts least' most') :
    least = least' ∧ most = most' := by
  cases h <;> cases h' <;> exact ⟨rfl, rfl⟩

theorem IsRange.le (h : IsRange counts least most) : ∀ m ∈ most, least ≤ m := by
  cases h with
  | exact n =>
    intro m hm
    cases hm
    exact Nat.le_refl _
  | atLeast n => nofun
  | between hle =>
    intro m hm
    cases hm
    exact hle

theorem repeatWithin_eq_ok_iff : repeatWithin room body least most = .ok r ↔
    Fits room least most ∧ body.repeated least most = r := by
  unfold repeatWithin Fits
  split
  · rename_i hlarge
    exact ⟨nofun, fun h => absurd h.1.1 (Nat.not_le.2 hlarge)⟩
  · rename_i hcount
    split
    · rename_i hroom
      exact ⟨nofun, fun h => absurd h.1.2 (Nat.not_le.2 hroom)⟩
    · rename_i hroom
      exact ⟨fun h => ⟨⟨Nat.not_lt.1 hcount, Nat.not_lt.1 hroom⟩, Except.ok.inj h⟩,
        fun h => congrArg Except.ok h.2⟩

theorem repeatWithin_eq_error (h : repeatWithin room body least most = .error fault) :
    Exceeds room least most fault := by
  unfold repeatWithin at h
  split at h
  · cases h
    exact .tooLarge ‹_›
  · split at h
    · cases h
      exact .memory (Nat.not_lt.1 ‹_›) ‹_›
    · cases h

/-- Counts are those of a range, or there is something wrong with them. -/
theorem applyCounts_cases (room : Nat) (body : Regex) (counts : List (Option Int)) :
    (∃ least most, IsRange counts least most ∧
      applyCounts room body counts = repeatWithin room body least most) ∨
    ∃ fault, applyCounts room body counts = .error fault ∧ fault.Syntactic := by
  unfold applyCounts
  split
  · rename_i n
    split
    · rename_i hn
      obtain ⟨k, rfl⟩ := Int.eq_ofNat_of_zero_le hn
      exact .inl ⟨k, _, .exact k, rfl⟩
    · exact .inr ⟨_, rfl, by simp [Fault.Syntactic]⟩
  · rename_i n
    split
    · rename_i hn
      obtain ⟨k, rfl⟩ := Int.eq_ofNat_of_zero_le hn
      exact .inl ⟨k, _, .atLeast k, rfl⟩
    · exact .inr ⟨_, rfl, by simp [Fault.Syntactic]⟩
  · rename_i n m
    split
    · exact .inr ⟨_, rfl, by simp [Fault.Syntactic]⟩
    · rename_i hneg
      obtain ⟨k, rfl⟩ := Int.eq_ofNat_of_zero_le (Int.not_lt.1 fun hn => hneg (.inl hn))
      obtain ⟨l, rfl⟩ := Int.eq_ofNat_of_zero_le (Int.not_lt.1 fun hm => hneg (.inr hm))
      split
      · exact .inr ⟨_, rfl, by simp [Fault.Syntactic]⟩
      · exact .inl ⟨k, _, .between (by omega), rfl⟩
  · exact .inr ⟨_, rfl, by simp [Fault.Syntactic]⟩
  · exact .inr ⟨_, rfl, by simp [Fault.Syntactic]⟩

theorem exists_isRange_of_applyCounts (h : applyCounts room body counts = .ok r) :
    ∃ least most, IsRange counts least most ∧ Fits room least most := by
  rcases applyCounts_cases room body counts with ⟨least, most, hrange, heq⟩ | ⟨fault, heq, -⟩
  · rw [heq] at h
    exact ⟨least, most, hrange, (repeatWithin_eq_ok_iff.1 h).1⟩
  · rw [heq] at h
    cases h

theorem syntactic_or_exceeds_of_applyCounts (h : applyCounts room body counts = .error fault) :
    fault.Syntactic ∨ ∃ least most, IsRange counts least most ∧ Exceeds room least most fault := by
  rcases applyCounts_cases room body counts with
    ⟨least, most, hrange, heq⟩ | ⟨fault', heq, hsyntactic⟩
  · rw [heq] at h
    exact .inr ⟨least, most, hrange, repeatWithin_eq_error h⟩
  · rw [heq] at h
    cases h
    exact .inl hsyntactic

theorem applyCounts_eq (h : IsRange counts least most) (room : Nat) (body : Regex) :
    applyCounts room body counts = repeatWithin room body least most := by
  cases h with
  | exact n => simp [applyCounts]
  | atLeast n => simp [applyCounts]
  | between hle =>
    simp only [applyCounts]
    rw [if_neg (by omega), if_neg (by omega)]
    rfl

/-! ### Phrases -/

/-- The categories of phrases. -/
inductive Category where
  /-- Chains divided by bars. -/
  | pattern
  /-- Items one after the other. -/
  | chain
  /-- What a postfix operator works on. -/
  | item
  /-- An item without postfix operators. -/
  | base

/-- The phrases of the notation. -/
inductive Phrase : Category → Type where
  /-- A pattern without a bar. -/
  | chain : Phrase .chain → Phrase .pattern
  /-- One more chain behind a bar. -/
  | also : Phrase .pattern → Phrase .chain → Phrase .pattern
  /-- The empty chain. -/
  | nothing : Phrase .chain
  /-- One more item. -/
  | more : Phrase .chain → Phrase .item → Phrase .chain
  /-- An item without postfix operators. -/
  | base : Phrase .base → Phrase .item
  /-- One more postfix operator. -/
  | postfixed : Phrase .item → Postfix → Phrase .item
  /-- One more repetition. -/
  | repeated : Phrase .item → List (Option Int) → Phrase .item
  /-- A set of characters. -/
  | chars : CharSet → Phrase .base
  /-- The name of a pattern. -/
  | reference : String → Phrase .base
  /-- A pattern in parentheses. -/
  | group : Phrase .pattern → Phrase .base

/-- The range of a postfix operator. -/
def Postfix.range : Postfix → Nat × Option Nat
  | .star => (0, none)
  | .plus => (1, none)
  | .option => (0, some 1)

namespace Phrase

variable {category : Category}

/-- The tokens of a phrase. -/
def tokens : {category : Category} → Phrase category → List Token
  | _, .chain c => c.tokens
  | _, .also p c => p.tokens ++ .bar :: c.tokens
  | _, .nothing => []
  | _, .more c i => c.tokens ++ i.tokens
  | _, .base b => b.tokens
  | _, .postfixed i operator => i.tokens ++ [.postfixOp operator]
  | _, .repeated i counts => i.tokens ++ [.repetition counts]
  | _, .chars set => [.chars set]
  | _, .reference name => [.reference name]
  | _, .group p => .opening :: (p.tokens ++ [.closing])

/-- The language that a phrase denotes, where `names` says what named patterns match: bars unite,
chains concatenate in order, and postfix operators and repetitions take the powers of their
range. -/
def language (names : String → List Int → Prop) :
    {category : Category} → Phrase category → Language Int
  | _, .chain c => c.language names
  | _, .also p c => p.language names + c.language names
  | _, .nothing => 1
  | _, .more c i => c.language names * i.language names
  | _, .base b => b.language names
  | _, .postfixed i operator => powers (i.language names) operator.range.1 operator.range.2
  | _, .repeated i counts =>
    {w | ∃ least most, IsRange counts least most ∧ w ∈ powers (i.language names) least most}
  | _, .chars set => {w | ∃ c ∈ set, w = [c]}
  | _, .reference name => {w | names name w}
  | _, .group p => p.language names

end Phrase

/-- The counts of all repetitions are ranges whose parts can be made. -/
def CountsFit (room : Nat) (ts : List Token) : Prop :=
  ∀ counts, .repetition counts ∈ ts → ∃ least most, IsRange counts least most ∧ Fits room least most

theorem countsFit_append {ts us : List Token} :
    CountsFit room (ts ++ us) ↔ CountsFit room ts ∧ CountsFit room us := by
  simp only [CountsFit, List.mem_append, or_imp, forall_and]

/-! ### The language of what is read -/

section

variable (names : String → List Int → Prop)

theorem wordsOf_apply (operator : Postfix) (r : Regex) :
    wordsOf names (operator.apply r) =
      powers (wordsOf names r) operator.range.1 operator.range.2 := by
  cases operator with
  | star => simp [Postfix.apply, Postfix.range, powers_none]
  | plus => simp [Postfix.apply, Postfix.range, powers_none]
  | option =>
    have hpowers := powers_some (l := wordsOf names r) (n := 0) (d := 1)
    simpa [Postfix.apply, Postfix.range] using hpowers.symm

/-- A level denotes the union of its alternatives and of the chain being read. -/
theorem wordsOf_close (level : Level) : wordsOf names level.close =
    (level.alternatives.reverse.map (wordsOf names)).sum +
      (level.items.reverse.map (wordsOf names)).prod := by
  obtain ⟨first, rest, hl⟩ : ∃ first rest,
      (level.chain :: level.alternatives).reverse = first :: rest :=
    List.exists_cons_of_ne_nil (by simp)
  have hclose : level.close = balanced .alt first rest := by
    rw [Level.close, hl]
  have hsum : wordsOf names level.close =
      ((level.chain :: level.alternatives).reverse.map (wordsOf names)).sum := by
    rw [hclose, hl, apply_balanced (· + ·) fun _ _ => wordsOf_alt, List.sum_eq_foldl,
      List.map_cons, List.foldl_cons, zero_add]
  rw [hsum, List.reverse_cons, List.map_append, List.sum_append, ← wordsOf_sequence]
  simp [Level.chain]

end

/-! ### Phrases are accepted -/

section

variable (room : Nat) (names : String → List Int → Prop)

/-- What reading a phrase comes to. A base or an item is an expression that is pushed, a chain is
several of them, and a pattern from the start of a group on is a level; all denote the language of
the phrase. -/
def Phrase.Reads : {category : Category} → Phrase category → Prop
  | .pattern, p => ∃ level : Level, wordsOf names level.close = p.language names ∧
      ∀ outer rest, parseFrom room {} outer (p.tokens ++ rest) = parseFrom room level outer rest
  | .chain, c => ∃ items, (items.reverse.map (wordsOf names)).prod = c.language names ∧
      ∀ level outer rest, parseFrom room level outer (c.tokens ++ rest) =
        parseFrom room { level with items := items ++ level.items } outer rest
  | .item, i => ∃ r, wordsOf names r = i.language names ∧
      ∀ level outer rest, parseFrom room level outer (i.tokens ++ rest) =
        parseFrom room (level.push r) outer rest
  | .base, b => ∃ r, wordsOf names r = b.language names ∧
      ∀ level outer rest, parseFrom room level outer (b.tokens ++ rest) =
        parseFrom room (level.push r) outer rest

theorem language_repeated (i : Phrase .item) (h : IsRange counts least most) :
    (Phrase.repeated i counts).language names = powers (i.language names) least most := by
  ext w
  constructor
  · rintro ⟨least', most', h', hw⟩
    obtain ⟨rfl, rfl⟩ := h.unique h'
    exact hw
  · exact fun hw => ⟨least, most, h, hw⟩

/-- **Phrases are accepted**, and mean what they denote, if the counts in them are ranges whose
parts can be made. -/
theorem Phrase.reads {category : Category} (p : Phrase category) (h : CountsFit room p.tokens) :
    p.Reads room names := by
  induction p with
  | chain c ih =>
    obtain ⟨items, hprod, hread⟩ := ih h
    refine ⟨{ items }, ?_, fun outer rest => ?_⟩
    · rw [wordsOf_close, hprod]
      exact zero_add _
    · rw [tokens, hread, List.append_nil]
  | also p c ihp ihc =>
    rw [tokens, countsFit_append] at h
    obtain ⟨level, hclose, hreadp⟩ := ihp h.1
    obtain ⟨items, hprod, hreadc⟩ := ihc fun counts hc => h.2 counts (List.mem_cons_of_mem _ hc)
    refine ⟨{ level.divide with items }, ?_, fun outer rest => ?_⟩
    · rw [wordsOf_close] at hclose ⊢
      simp only [Level.divide, List.reverse_cons, List.map_append, List.sum_append, hprod]
      simpa [Level.chain, wordsOf_sequence, language] using
        congrArg (· + c.language names) hclose
    · rw [tokens, List.append_assoc, hreadp, List.cons_append, parseFrom, hreadc, Level.divide,
        List.append_nil]
  | nothing => exact ⟨[], rfl, fun _ _ _ => rfl⟩
  | more c i ihc ihi =>
    rw [tokens, countsFit_append] at h
    obtain ⟨items, hprod, hreadc⟩ := ihc h.1
    obtain ⟨r, hr, hreadi⟩ := ihi h.2
    refine ⟨r :: items, ?_, fun level outer rest => ?_⟩
    · rw [List.reverse_cons, List.map_append, List.prod_append, hprod]
      simp [hr, language]
    · rw [tokens, List.append_assoc, hreadc, hreadi]
      rfl
  | base b ih => exact ih h
  | postfixed i operator ih =>
    rw [tokens, countsFit_append] at h
    obtain ⟨r, hr, hread⟩ := ih h.1
    refine ⟨operator.apply r, ?_, fun level outer rest => ?_⟩
    · rw [wordsOf_apply, hr, language]
    · rw [tokens, List.append_assoc, hread]
      rfl
  | repeated i counts ih =>
    rw [tokens, countsFit_append] at h
    obtain ⟨r, hr, hread⟩ := ih h.1
    obtain ⟨least, most, hrange, hfits⟩ := h.2 counts (List.mem_singleton.2 rfl)
    refine ⟨r.repeated least most, ?_, fun level outer rest => ?_⟩
    · rw [wordsOf_repeated hrange.le, hr, language_repeated names i hrange]
    · rw [tokens, List.append_assoc, hread, List.singleton_append, parseFrom, Level.push]
      dsimp only
      rw [applyCounts_eq hrange room, repeatWithin_eq_ok_iff.2 ⟨hfits, rfl⟩]
      rfl
  | chars set => exact ⟨.chars set, Language.ext fun _ => matches_chars_iff, fun _ _ _ => rfl⟩
  | reference name =>
    exact ⟨.named name, Language.ext fun _ => matches_named_iff, fun _ _ _ => rfl⟩
  | group p ih =>
    have hp : CountsFit room p.tokens := fun counts hc =>
      h counts (List.mem_cons_of_mem _ (List.mem_append_left _ hc))
    obtain ⟨level, hclose, hread⟩ := ih hp
    refine ⟨level.close, hclose, fun around outer rest => ?_⟩
    rw [tokens, List.cons_append, parseFrom, List.append_assoc, hread]
    rfl

end

/-! ### Nothing else is accepted -/

/-- A level holds the items of a chain: an expression for each, the last one first. -/
inductive Holds : List Regex → Phrase .chain → Prop where
  /-- No items. -/
  | nothing : Holds [] .nothing
  /-- One more item. -/
  | more {items : List Regex} {item : Regex} {c : Phrase .chain} {i : Phrase .item} :
      Holds items c → Holds (item :: items) (.more c i)

/-- What has been read of a group that is open: the alternatives that a bar has ended, and the chain
after it. -/
structure Opened where
  /-- The alternatives. -/
  before : Option (Phrase .pattern) := none
  /-- The chain. -/
  chain : Phrase .chain := .nothing

namespace Opened

/-- What has been read of a group as a pattern. -/
def pattern (o : Opened) : Phrase .pattern :=
  match o.before with
  | none => .chain o.chain
  | some p => .also p o.chain

/-- What has been read with all groups that are open, the innermost first. -/
def tokens (o : Opened) : List Opened → List Token
  | [] => o.pattern.tokens
  | around :: outer => around.tokens outer ++ .opening :: o.pattern.tokens

variable {o o' : Opened} {os : List Opened} {ts : List Token}

/-- More of a group is read. -/
theorem tokens_append (h : o'.pattern.tokens = o.pattern.tokens ++ ts) :
    o'.tokens os = o.tokens os ++ ts := by
  cases os with
  | nil => exact h
  | cons around outer => rw [tokens, tokens, h, List.append_assoc, List.cons_append]

/-- One more item is read. -/
theorem tokens_more (i : Phrase .item) :
    { o with chain := .more o.chain i : Opened }.tokens os = o.tokens os ++ i.tokens := by
  refine tokens_append ?_
  obtain ⟨before, chain⟩ := o
  cases before with
  | none => rfl
  | some p => simp [pattern, Phrase.tokens]

/-- The last item grows. -/
theorem tokens_last {c : Phrase .chain} {i i' : Phrase .item} {t : Token}
    (hchain : o.chain = .more c i) (h : i'.tokens = i.tokens ++ [t]) :
    { o with chain := .more c i' : Opened }.tokens os = o.tokens os ++ [t] := by
  refine tokens_append ?_
  obtain ⟨before, chain⟩ := o
  obtain rfl : chain = .more c i := hchain
  cases before with
  | none => simp [pattern, Phrase.tokens, h]
  | some p => simp [pattern, Phrase.tokens, h]

end Opened

/-- **Nothing but phrases is accepted.** What has been read, with what is still to be read, makes a
pattern. -/
theorem exists_phrase_of_parseFrom {level : Level} {outer : List Level} {rest : List Token}
    (h : parseFrom room level outer rest = .ok r) {o : Opened} {os : List Opened}
    (ho : Holds level.items o.chain)
    (hos : List.Forall₂ (fun level o => Holds level.items o.chain) outer os) :
    ∃ p : Phrase .pattern, p.tokens = o.tokens os ++ rest := by
  fun_induction parseFrom room level outer rest generalizing o os with
  | case1 level outer hempty =>
    obtain rfl := List.isEmpty_iff.1 hempty
    cases hos
    exact ⟨o.pattern, (List.append_nil _).symm⟩
  | case2 => cases h
  | case3 level outer set rest ih =>
    obtain ⟨p, hp⟩ := ih h (o := { o with chain := .more o.chain (.base (.chars set)) })
      (.more ho) hos
    exact ⟨p, by rw [hp, Opened.tokens_more, List.append_assoc]; rfl⟩
  | case4 level outer name rest ih =>
    obtain ⟨p, hp⟩ := ih h (o := { o with chain := .more o.chain (.base (.reference name)) })
      (.more ho) hos
    exact ⟨p, by rw [hp, Opened.tokens_more, List.append_assoc]; rfl⟩
  | case5 level outer rest ih =>
    have htokens : Opened.tokens { before := some o.pattern } os = o.tokens os ++ [.bar] :=
      Opened.tokens_append rfl
    obtain ⟨p, hp⟩ := ih h (o := { before := some o.pattern }) .nothing hos
    refine ⟨p, ?_⟩
    rw [hp, htokens, List.append_assoc]
    rfl
  | case6 level outer rest ih =>
    obtain ⟨p, hp⟩ := ih h (o := {}) .nothing (.cons ho hos)
    refine ⟨p, ?_⟩
    rw [hp, Opened.tokens, List.append_assoc]
    rfl
  | case7 => cases h
  | case8 level rest around outer ih =>
    cases hos with
    | @cons _ around' _ os haround houter =>
      obtain ⟨p, hp⟩ := ih h
        (o := { around' with chain := .more around'.chain (.base (.group o.pattern)) })
        (.more haround) houter
      refine ⟨p, ?_⟩
      rw [hp, Opened.tokens_more, Opened.tokens]
      simp [Phrase.tokens]
  | case9 => cases h
  | case10 level outer operator rest item items hitems ih =>
    rw [hitems] at ho
    generalize hchain : o.chain = chain at ho
    cases ho with
    | @more _ _ c i hc =>
      obtain ⟨p, hp⟩ :=
        ih h (o := { o with chain := .more c (.postfixed i operator) }) (.more hc) hos
      refine ⟨p, ?_⟩
      rw [hp, Opened.tokens_last hchain rfl, List.append_assoc]
      rfl
  | case11 => cases h
  | case12 => cases h
  | case13 level outer counts rest item items hitems r' hr ih =>
    rw [hitems] at ho
    generalize hchain : o.chain = chain at ho
    cases ho with
    | @more _ _ c i hc =>
      obtain ⟨p, hp⟩ := ih h (o := { o with chain := .more c (.repeated i counts) }) (.more hc) hos
      refine ⟨p, ?_⟩
      rw [hp, Opened.tokens_last hchain rfl, List.append_assoc]
      rfl

end LexParse.Regex
