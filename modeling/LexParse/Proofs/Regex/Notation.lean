import LexParse.Proofs.Grammar.Resolved
import LexParse.Proofs.Regex.Descent
import LexParse.Proofs.Regex.Phrases

/-!
# What patterns are accepted, and what they mean

The text of a pattern is divided into tokens, and these are read as a phrase of the notation. What
goes wrong is a fault of the notation, with two exceptions. Where the parts of a repetition cannot
be made, reading ends with a fault of the machine; and where groups are nested too deep, so does the
descent.

## What is proved

* `syntactic_of_tokensFrom`, `syntactic_or_overflows`: what the faults are.
* `parse_phrases`: which texts are accepted, what they mean, and what happens to the others.
* `parse_tooManyCopies`: a repetition whose copies cannot be counted is refused.
-/

namespace LexParse.Regex

variable {room : Nat} {counts : List (Option Int)} {least : Nat} {most : Option Nat} {r : Regex}
  {fault : Fault}

/-! ### Faults -/

variable {level : Level} {outer : List Level} {ts : List Token} {t : Token}

/-- A repetition among the tokens has a fault for its number of copies. -/
def Overflows (room : Nat) (ts : List Token) (fault : Fault) : Prop :=
  ∃ counts least most, .repetition counts ∈ ts ∧ IsRange counts least most ∧
    Exceeds room least most fault

theorem Overflows.cons (h : Overflows room ts fault) : Overflows room (t :: ts) fault := by
  obtain ⟨counts, least, most, hmem, hrest⟩ := h
  exact ⟨counts, least, most, List.mem_cons_of_mem _ hmem, hrest⟩

/-- What is accepted has counts that can be made. -/
theorem countsFit_of_parseFrom (h : parseFrom room level outer ts = .ok r) : CountsFit room ts := by
  fun_induction parseFrom room level outer ts with
  | case1 => simp [CountsFit]
  | case2 | case7 | case9 | case11 | case12 => cases h
  | case3 _ _ _ _ ih | case4 _ _ _ _ ih | case5 _ _ _ ih | case6 _ _ _ ih | case8 _ _ _ _ ih
  | case10 _ _ _ _ _ _ _ ih =>
    intro counts hcounts
    rcases List.mem_cons.1 hcounts with heq | hcounts
    · cases heq
    · exact ih h counts hcounts
  | case13 level outer counts rest item items hitems r' hr ih =>
    intro counts' hcounts
    rcases List.mem_cons.1 hcounts with heq | hcounts
    · obtain rfl := Token.repetition.inj heq
      exact exists_isRange_of_applyCounts hr
    · exact ih h counts' hcounts

theorem syntactic_noOperand (h : fault.Syntactic) : (noOperand outer fault).Syntactic := by
  unfold noOperand
  split
  · exact h
  · simp [Fault.Syntactic]

/-- A fault of reading tokens is one of the notation, or comes from a repetition. -/
theorem syntactic_or_overflows (h : parseFrom room level outer ts = .error fault) :
    fault.Syntactic ∨ Overflows room ts fault := by
  fun_induction parseFrom room level outer ts with
  | case1 => cases h
  | case2 | case7 =>
    cases h
    exact .inl (by simp [Fault.Syntactic])
  | case3 _ _ _ _ ih | case4 _ _ _ _ ih | case5 _ _ _ ih | case6 _ _ _ ih | case8 _ _ _ _ ih
  | case10 _ _ _ _ _ _ _ ih | case13 _ _ _ _ _ _ _ _ _ ih => exact (ih h).imp id .cons
  | case9 | case11 =>
    cases h
    exact .inl (syntactic_noOperand (by simp [Fault.Syntactic]))
  | case12 level outer counts rest item items hitems fault' hfault =>
    cases h
    refine (syntactic_or_exceeds_of_applyCounts hfault).imp id ?_
    rintro ⟨least, most, hrange, hexceeds⟩
    exact ⟨counts, least, most, List.mem_cons_self .., hrange, hexceeds⟩

theorem syntactic_of_readEscape {s : List Char} (h : readEscape s = .error fault) :
    fault.Syntactic := by
  unfold readEscape at h
  split at h
  · cases h
    simp [Fault.Syntactic]
  · rename_i a b rest
    rcases bind_eq_error_iff.1 h with h | ⟨_, _, h⟩
    · unfold hexEscaped at h
      split at h
      · split at h
        · cases h
        · cases h
          simp [Fault.Syntactic]
      · cases h
        simp [Fault.Syntactic]
    · cases h
  · cases h
    simp [Fault.Syntactic]
  · cases h

theorem syntactic_of_add {st : ClassState} {unit : CharSet} (h : st.add unit = .error fault) :
    fault.Syntactic := by
  unfold ClassState.add at h
  split at h
  · split at h
    · split at h
      · cases h
      · cases h
        simp [Fault.Syntactic]
    · cases h
      simp [Fault.Syntactic]
  · cases h

theorem syntactic_of_readItems {st : ClassState} {s : List Char}
    (h : readItems st s = .error fault) : fault.Syntactic := by
  fun_induction readItems st s with
  | case1 | case2 | case4 =>
    cases h
    simp [Fault.Syntactic]
  | case3 => cases h
  | case5 _ _ _ ih => exact ih h
  | case6 _ _ _ hfault =>
    cases h
    exact syntactic_of_readEscape hfault
  | case7 _ _ _ _ _ _ _ hfault =>
    cases h
    exact syntactic_of_add hfault
  | case8 _ _ _ _ _ _ _ _ ih => exact ih h
  | case9 _ _ _ _ _ _ _ hfault =>
    cases h
    exact syntactic_of_add hfault
  | case10 _ _ _ _ _ _ _ _ ih => exact ih h

theorem syntactic_of_readClass {s : List Char} (h : readClass s = .error fault) :
    fault.Syntactic := by
  unfold readClass at h
  split at h
  · rename_i rest
    cases hitems : readItems {} rest with
    | error fault' =>
      rw [hitems] at h
      cases h
      exact syntactic_of_readItems hitems
    | ok p =>
      rw [hitems] at h
      cases h
  · exact syntactic_of_readItems h

theorem syntactic_of_readBraced {s : List Char} (h : readBraced s = .error fault) :
    fault.Syntactic := by
  unfold readBraced at h
  split at h
  · cases h
    simp [Fault.Syntactic]
  · cases hbraced : braced (s.takeWhile notBrace) with
    | ok t =>
      rw [hbraced] at h
      cases h
    | error fault' =>
      rw [hbraced] at h
      cases h
      unfold braced at hbraced
      dsimp only at hbraced
      split at hbraced
      · cases hbraced
      · split at hbraced
        · cases hbraced
        · cases hbraced
          simp [Fault.Syntactic]

/-- A fault of dividing a text into tokens is one of the notation. -/
theorem syntactic_of_tokensFrom {seen : List Token} {s : List Char}
    (h : tokensFrom seen s = .error fault) : fault.Syntactic := by
  fun_induction tokensFrom seen s with
  | case1 => cases h
  | case2 _ _ _ hfault =>
    cases h
    exact syntactic_of_readEscape hfault
  | case4 _ _ _ hfault =>
    cases h
    exact syntactic_of_readClass hfault
  | case6 _ _ _ hfault =>
    cases h
    exact syntactic_of_readBraced hfault
  | case8 | case9 =>
    cases h
    simp [Fault.Syntactic]
  | case3 _ _ _ _ _ _ ih | case5 _ _ _ _ _ _ ih | case7 _ _ _ _ _ _ ih => exact ih h
  | case10 _ _ ih | case11 _ _ ih | case12 _ _ ih | case13 _ _ ih | case14 _ _ ih
  | case15 _ _ ih | case16 _ _ ih => exact ih h
  | case17 _ _ _ _ _ _ _ _ _ _ _ _ _ _ _ ih => exact ih h

/-! ### Texts -/

variable {text : String}

/-- The text of a pattern is accepted, and means what the pattern denotes. -/
theorem exists_parse_of_phrase (names : String → List Int → Prop) {p : Phrase .pattern}
    (hp : tokens text.toList = .ok p.tokens) (hfit : CountsFit room p.tokens) :
    ∃ r, parse room text = .ok r ∧ wordsOf names r = p.language names := by
  obtain ⟨level, hclose, hread⟩ := p.reads room names hfit
  refine ⟨level.close, ?_, hclose⟩
  have hend := hread [] []
  rw [List.append_nil] at hend
  rw [parse, hp]
  exact hend

/-- A text that is accepted is that of a pattern. -/
theorem exists_phrase_of_parse (h : parse room text = .ok r) :
    ∃ p : Phrase .pattern, tokens text.toList = .ok p.tokens ∧ CountsFit room p.tokens := by
  obtain ⟨ts, hts, h⟩ := bind_eq_ok_iff.1 h
  obtain ⟨p, rfl⟩ := exists_phrase_of_parseFrom h (o := {}) .nothing .nil
  exact ⟨p, hts, countsFit_of_parseFrom h⟩

/-- **Which patterns are accepted, and what they mean.** A text is accepted just if its tokens are
those of a pattern, the counts of each repetition are a range, and its parts can be made. The
expression then matches the words of the language that the pattern denotes. Otherwise there is a
fault of the notation, unless a repetition is reached whose counts are a range but whose parts
cannot be made. The descent through the grammar does the same, unless groups are nested deeper than
it may go. -/
theorem parse_phrases (room : Nat) (text : String) :
    ((∃ r, parse room text = .ok r) ↔
      ∃ p : Phrase .pattern, tokens text.toList = .ok p.tokens ∧ CountsFit room p.tokens) ∧
    (∀ r, parse room text = .ok r → ∀ p : Phrase .pattern, tokens text.toList = .ok p.tokens →
      ∀ names w, Matches names r w ↔ w ∈ p.language names) ∧
    (∀ fault, parse room text = .error fault →
      fault.Syntactic ∨ ∃ ts, tokens text.toList = .ok ts ∧ Overflows room ts fault) ∧
    ∀ depth, parseByDescent room depth text = (parse room text).mapError .fault ∨
      parseByDescent room depth text = .error .tooDeep ∧
        ∃ ts, tokens text.toList = .ok ts ∧ depth < deepest 0 ts := by
  refine ⟨⟨?_, ?_⟩, ?_, ?_, fun depth => parseByDescent_cases room depth text⟩
  · rintro ⟨r, h⟩
    exact exists_phrase_of_parse h
  · rintro ⟨p, hp, hfit⟩
    obtain ⟨r, hr, -⟩ := exists_parse_of_phrase (fun _ _ => False) hp hfit
    exact ⟨r, hr⟩
  · intro r h p hp names w
    obtain ⟨p', hp', hfit⟩ := exists_phrase_of_parse h
    rw [← Except.ok.inj (hp.symm.trans hp')] at hfit
    obtain ⟨r', hr', hwords⟩ := exists_parse_of_phrase names hp hfit
    obtain rfl := Except.ok.inj (h.symm.trans hr')
    rw [← hwords, mem_wordsOf_iff]
  · intro fault h
    rcases bind_eq_error_iff.1 h with h | ⟨ts, hts, h⟩
    · exact .inl (syntactic_of_tokensFrom h)
    · exact (syntactic_or_overflows h).imp id fun hover => ⟨ts, hts, hover⟩

/-- Two or three letters, each one of two. -/
def twoOrThree : Phrase .pattern :=
  .chain <| .more .nothing <| .repeated
    (.base <| .group <| .also
      (.chain <| .more .nothing <| .base <| .chars (.ofChar 'a'))
      (.more .nothing <| .base <| .chars (.ofChar 'b')))
    [some 2, some 3]

/-- Two or three letters are read as what they are, where there is room for three parts; the descent
opens one group for them. -/
theorem parse_twoOrThree : ∃ r, parse 3 "(a|b){2,3}" = .ok r ∧
    parseByDescent 3 1 "(a|b){2,3}" = .ok r ∧
    ∀ names w, Matches names r w ↔ w ∈ twoOrThree.language names := by
  have htokens : tokens "(a|b){2,3}".toList = .ok twoOrThree.tokens := by decide +kernel
  have hfit : CountsFit 3 twoOrThree.tokens := by
    intro counts hcounts
    obtain rfl : counts = [some 2, some 3] := by simpa [twoOrThree, Phrase.tokens] using hcounts
    exact ⟨2, some 3, .between (by decide), by decide, by decide⟩
  obtain ⟨haccepts, hmeans, -, hdescent⟩ := parse_phrases 3 "(a|b){2,3}"
  obtain ⟨r, hr⟩ := haccepts.2 ⟨twoOrThree, htokens, hfit⟩
  refine ⟨r, hr, ?_, hmeans r hr twoOrThree htokens⟩
  rcases hdescent 1 with hsame | ⟨-, ts, hts, hdeep⟩
  · rw [hsame, hr]
    rfl
  · obtain rfl := Except.ok.inj (htokens.symm.trans hts)
    exact absurd hdeep (by decide)

/-- One letter, too often. -/
def tooManyCopies : Phrase .pattern :=
  .chain <| .more .nothing <| .repeated (.base <| .chars (.ofChar 'a')) [some 9223372036854775808]

/-- **A repetition whose copies cannot be counted is refused**, however much room there is, though
nothing is wrong with its notation; and where something is wrong behind it, that is not what is
reported. -/
theorem parse_tooManyCopies :
    tokens "a{9223372036854775808}".toList = .ok tooManyCopies.tokens ∧
    (∀ counts, .repetition counts ∈ tooManyCopies.tokens →
      ∃ least most, IsRange counts least most) ∧
    (∀ room, parse room "a{9223372036854775808}" = .error .countTooLarge) ∧
    (∀ room, parse room "a{9223372036854775808})" = .error .countTooLarge) ∧
    ¬ Fault.countTooLarge.Syntactic := by
  have htokens : tokens "a{9223372036854775808}".toList = .ok tooManyCopies.tokens := by
    decide +kernel
  have hstray : tokens "a{9223372036854775808})".toList =
      .ok (tooManyCopies.tokens ++ [.closing]) := by decide +kernel
  refine ⟨htokens, fun counts hcounts => ?_, fun room => ?_, fun room => ?_, fun h => h.1 rfl⟩
  · obtain rfl : counts = [some 9223372036854775808] := by
      simpa [tooManyCopies, Phrase.tokens] using hcounts
    exact ⟨9223372036854775808, _, .exact 9223372036854775808⟩
  · rw [parse, htokens]
    rfl
  · rw [parse, hstray]
    rfl

end LexParse.Regex
