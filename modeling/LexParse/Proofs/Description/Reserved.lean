import LexParse.Proofs.Description.Calls
import LexParse.Proofs.Scan.Lockstep

/-!
# The kind of the end is reserved

The kind `$EOF` is that of the token that ends a stream, and names like it are reserved: no kind of
such a name can be declared. A token of that kind that a rule emits would be taken for the end. This
cannot happen, but for keywords: a keyword's rule is there before the name of its kind is rejected.

## What is proved

* `Lexer.next_end`: if no rule emits the kind of the end, then a token of that kind ends the stream,
  and nothing comes behind it.
* `Description.reserved_iff`: the rules of a description emit declared kinds with names that are not
  reserved, just when no keyword was given a reserved kind; and if none was given the kind of the
  end, then its lexers hand out that kind only at the end.
-/

namespace LexParse

namespace Lexer

variable {t : ScanTable} {l l' : Lexer} {token : Token}

theorem table_of_next (h : l.next = (.ok token, l')) : l'.table = l.table := by
  rw [next] at h
  split at h
  · cases h
  · rw [← (Prod.mk.inj h).2]

/-- A search that finds a token of the end's kind has come to the end. -/
theorem search_end (ht : ∀ r ∈ t.rules, r.action ≠ .emit Token.endKind) {b : Buffer}
    (h : (search t b).1 = .ok token) (hkind : token.kind = Token.endKind) :
    (∃ position, token = .endOfInput position) ∧ (search t b).2.2 = true := by
  have haction : ∀ rule kind, t.actionOf rule = .emit kind → kind ≠ Token.endKind := by
    rintro rule kind hrule rfl
    cases hr : t.rules[rule]? with
    | none =>
      rw [ScanTable.actionOf, hr] at hrule
      cases hrule
    | some r =>
      rw [ScanTable.actionOf, hr] at hrule
      exact ht r (List.mem_of_getElem? hr) hrule
  fun_induction search t b with
  | case1 b hend =>
    cases h
    exact ⟨⟨_, rfl⟩, rfl⟩
  | case2 => cases h
  | case3 => cases h
  | case4 b hend rule b' hscan hs kind hrule text position after hextract value hvalue =>
    cases h
    exact absurd hkind (haction rule kind hrule)
  | case5 => cases h
  | case6 b hend rule b' hscan hs hrule text position after hextract =>
    cases h
    exact ⟨⟨_, rfl⟩, rfl⟩
  | case7 b hend rule b' hscan hs hrule ih => exact ih h

/-- **A token of the end's kind ends the stream**, if no rule emits that kind: it has no value and
no text, and nothing comes behind it. -/
theorem next_end (ht : ∀ r ∈ l.table.rules, r.action ≠ .emit Token.endKind)
    (h : l.next = (.ok token, l')) (hkind : token.kind = Token.endKind) :
    (∃ position, token = .endOfInput position) ∧ l'.next = (.error .exhausted, l') := by
  rw [next] at h
  split at h
  · cases h
  · obtain ⟨hresult, hafter⟩ := Prod.mk.inj h
    obtain ⟨hposition, hfinished⟩ := search_end ht hresult hkind
    refine ⟨hposition, ?_⟩
    rw [← hafter, next]
    exact if_pos hfinished

end Lexer

namespace Description

variable {d : Description} {options : Options} {journal : Journal} {table : ScanTable}
  {empties : List ScanRule}

/-- The rules of a table do what the rules of the description do. -/
theorem exists_rule_of_scanTable
    (h : ((d.scanTable options).run journal).1 = .ok (table, empties)) {r : ScanRule}
    (hr : r ∈ table.rules) : ∃ r' ∈ d.rules, r'.action = r.action := by
  have houtcome := (d.yields_scanTable options journal).symm.trans h
  obtain ⟨alphabet, rules, -, hrules, -, -, htable⟩ :=
    (d.scannerOutcome_eq_ok_iff options).1 houtcome
  have htable : table = ScanTable.forRules alphabet options.minimize rules d.kinds := htable
  rw [htable, (ScanTable.parts_forRules ..).1] at hr
  obtain ⟨bindings, -, hsubstituted⟩ := exists_substituted hrules
  obtain ⟨declared, hdeclared, heq⟩ := exists_mem_of_forall₂ hsubstituted.flip hr
  exact ⟨declared, hdeclared, heq.action.symm⟩

/-- **The rules of a description emit declared kinds with names that are not reserved**, just when
no keyword was given a reserved kind. If none was given the kind of the end, then a lexer hands out
a token of that kind only at the end: without a value and a text, and with nothing behind it. -/
theorem reserved_iff (room : Nat) (calls : List Call) :
    ((∀ r ∈ (after room {} calls).rules, ∀ kind, r.action = .emit kind →
        isReserved kind = false ∧ (after room {} calls).Declares kind) ↔
      ∀ text kind, .keyword text kind ∈ calls → isReserved kind = false) ∧
    ((∀ text, .keyword text Token.endKind ∉ calls) →
      ∀ options journal table empties,
        (((after room {} calls).scanTable options).run journal).1 = .ok (table, empties) →
        ∀ (l l' : Lexer) (token : Token), l.table = table → l.next = (.ok token, l') →
          token.kind = Token.endKind →
          (∃ position, token = .endOfInput position) ∧ l'.next = (.error .exhausted, l')) := by
  have hbuilt := builtBy_after room calls
  refine ⟨⟨fun h text kind hmem => ?_, fun h r hr kind hkind => ?_⟩, ?_⟩
  · obtain ⟨r, hr, hkind⟩ := hbuilt.kept text kind hmem
    exact (h r hr kind hkind).1
  · rcases hbuilt.declared r hr kind hkind with hdeclares | ⟨hreserved, text, hmem⟩
    · obtain ⟨k, hk, rfl⟩ := hdeclares
      exact ⟨hbuilt.unreserved k hk, k, hk, rfl⟩
    · rw [h text kind hmem] at hreserved
      cases hreserved
  · intro hno options journal table empties htable l l' token hl hnext hkind
    refine l.next_end (fun r hr haction => ?_) hnext hkind
    obtain ⟨r', hr', heq⟩ := exists_rule_of_scanTable htable (hl ▸ hr)
    rcases hbuilt.declared r' hr' _ (heq.trans haction) with ⟨k, hk, hname⟩ | ⟨-, text, hmem⟩
    · have hreserved := hbuilt.unreserved k hk
      rw [hname] at hreserved
      exact absurd hreserved (by decide)
    · exact hno text hmem

/-! ### One keyword -/

/-- The rule of a keyword of one letter. -/
def letterX (kind : String) : ScanRule := ⟨.chars (.ofChar 'x'), .emit kind, Text.quoted "x"⟩

theorem literal_x : Regex.literal ['x'] = .chars (.ofChar 'x') := by
  simp [Regex.literal, Regex.sequence, Regex.balanced]

theorem scanTable_letterX {kind : String} (hpatterns : d.patterns = [])
    (hrules : d.rules = [letterX kind]) : ((d.scanTable {}).run []).1 =
      .ok (.forRules .bytes true [letterX kind] d.kinds,
        (emptyMatching [letterX kind]).map (·.2)) := by
  have hresolve : d.resolveRules = .ok [letterX kind] := by
    rw [resolveRules_eq_mapM _ hpatterns, hrules]
    rfl
  have houtcome := (d.scannerOutcome_eq_ok_iff {}).2
    ⟨.bytes, _, rfl, hresolve, List.cons_ne_nil _ _, rfl, rfl⟩
  exact (d.yields_scanTable {} []).trans houtcome

/-- The letter is taken as a token of the keyword's kind. -/
theorem takes_letterX {kind : String} {kinds : List TokenKind} (h : payloadIn kinds kind = none) :
    Takes .bytes [letterX kind] kinds ['x'] "input" 0 1
      (some (.ok ⟨kind, .str "x", "x", ⟨"input", 1, 0, 1, 1⟩⟩)) := by
  have hlong : IsLongest .bytes [letterX kind] ['x'] 1 0 := by
    refine ⟨⟨Nat.one_pos, Nat.le_refl 1, ?_, _, rfl, .chars (by decide)⟩, ?_, ?_⟩
    · intro c hc
      obtain rfl := List.mem_singleton.1 hc
      decide
    · exact fun _ _ hm => hm.le_length
    · exact fun _ _ => Nat.zero_le _
  refine ⟨0, _, hlong, rfl, ?_⟩
  rw [letterX, handOut, h]
  rfl

theorem rules_keyword_x (kind : String) :
    (after 0 {} [.keyword "x" kind]).rules = [letterX kind] := by
  -- declaring the kind adds no rule, whether it succeeds or not
  have hensure : ∀ d, ((Describe.ensureToken kind).run d).2.rules = d.rules := by
    intro d
    rcases run_ensureToken_cases kind d with ⟨kinds, heq, -⟩ | ⟨-, heq⟩
    all_goals rw [heq]
  rw [letterX, ← literal_x]
  exact hensure { rules := [⟨Regex.literal ['x'], .emit kind, Text.quoted "x"⟩] }

/-- A lexer for a keyword hands out the keyword, then the end of the text, and nothing behind it. -/
theorem next_end_letterX : ∃ table empties,
    (((after 0 {} [.keyword "x" "X"]).scanTable {}).run []).1 = .ok (table, empties) ∧
    ∃ l token l', (Lexer.ofBuffer table (.ofText ['x'] "input")).next =
        (.ok ⟨"X", .str "x", "x", ⟨"input", 1, 0, 1, 1⟩⟩, l) ∧
      l.next = (.ok token, l') ∧ token.kind = Token.endKind ∧
      (∃ position, token = .endOfInput position) ∧ l'.next = (.error .exhausted, l') := by
  have htable := scanTable_letterX (d := after 0 {} [.keyword "x" "X"]) rfl (rules_keyword_x "X")
  have hdecides := ScanTable.decides_forRules .bytes true [letterX "X"] [⟨"X", none⟩]
  have htokens := Lexer.tokens_of_munches (l := .ofBuffer _ (.ofText ['x'] "input")) hdecides
    (Lexer.ready_ofText _ ['x'] "input") rfl (.token (takes_letterX rfl) rfl .done)
  obtain ⟨l, hnext, hrest⟩ := Lexer.exists_next_of_tokensFrom htokens.1
  obtain ⟨l', hlast, -⟩ := Lexer.exists_next_of_tokensFrom (hrest rfl)
  obtain ⟨-, hend⟩ := reserved_iff 0 [.keyword "x" "X"]
  obtain ⟨hposition, hafter⟩ := hend (by simp [Token.endKind]) {} [] _ _ htable l l' _
    (Lexer.table_of_next hnext) hlast rfl
  exact ⟨_, _, htable, l, _, l', hnext, hlast, rfl, hposition, hafter⟩

/-- **A keyword of the end's kind leaves its rule behind**, although its kind is rejected. Its text
is handed out as a token of that kind, with a value and a text. -/
theorem next_end_keyword :
    (Description.apply {} (Describe.keyword "x" Token.endKind)).1 =
      .error (.reservedKind Token.endKind) ∧
    (∃ r ∈ (after 0 {} [.keyword "x" Token.endKind]).rules, r.action = .emit Token.endKind) ∧
    isReserved Token.endKind = true ∧ ∃ table empties,
      (((after 0 {} [.keyword "x" Token.endKind]).scanTable {}).run []).1 = .ok (table, empties) ∧
      (Lexer.ofBuffer table (.ofText ['x'] "input")).next.1 =
        .ok ⟨Token.endKind, .str "x", "x", ⟨"input", 1, 0, 1, 1⟩⟩ := by
  have hrules := rules_keyword_x Token.endKind
  have htable := scanTable_letterX (d := after 0 {} [.keyword "x" Token.endKind]) rfl hrules
  refine ⟨rfl, ⟨_, hrules ▸ List.mem_singleton_self _, rfl⟩, by decide, _, _, htable, ?_⟩
  have hdecides := ScanTable.decides_forRules .bytes true [letterX Token.endKind] []
  have htokens := Lexer.tokens_of_munches (l := .ofBuffer _ (.ofText ['x'] "input")) hdecides
    (Lexer.ready_ofText _ ['x'] "input") rfl (.last (takes_letterX rfl) rfl)
  obtain ⟨l, hnext, -⟩ := Lexer.exists_next_of_tokensFrom htokens.1
  exact congrArg Prod.fst hnext

end Description

end LexParse
