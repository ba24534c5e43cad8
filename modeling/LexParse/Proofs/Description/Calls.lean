import LexParse.Description.Basic
import Mathlib.Data.List.Induction

/-!
# What the calls do that build a description

A description is built by calls, and a call that fails keeps what it has done. So what holds of
every description that can be built is an invariant of all calls, those that fail included. The
lemma `effect_step` says once what a call can do: it declares token kinds whose names are not
reserved, it adds rules, and it gives names a precedence of a level of its own. A rule that emits a
token comes with the declaration of its kind, with one exception: a keyword's rule is added before
its kind is declared, and stays when the name is reserved.

## What is proved

* `Description.effect_step`: what a call does to a description.
* `Description.builtBy_after`: what holds of every description that can be built.
-/

namespace LexParse

/-! ### Running steps -/

namespace Describe

variable {α β : Type}

/-- A step that fails stops what comes behind it; what it has done stays. -/
theorem run_bind (x : Describe α) (f : α → Describe β) (d : Description) :
    (x >>= f).run d =
      match x.run d with
      | (.ok a, d) => (f a).run d
      | (.error fault, d) => (.error fault, d) := by
  show (ExceptT.bind x f).run d = _
  simp only [ExceptT.bind, ExceptT.mk, ExceptT.bindCont, ExceptT.run, Bind.bind, StateT.bind]
  rcases x d with ⟨_ | _, _⟩ <;> rfl

theorem run_get_bind (f : Description → Describe α) (d : Description) :
    (get >>= f).run d = (f d).run d := rfl

theorem run_readPattern_bind (room : Nat) (text : String) (f : Regex → Describe α)
    (d : Description) : (readPattern room text >>= f).run d =
      match Regex.parse room text with
      | .ok r => (f r).run d
      | .error fault => (.error (.pattern fault), d) := by
  rw [run_bind, readPattern]
  cases Regex.parse room text <;> rfl

theorem run_token (name : String) (payload : Option Payload) (d : Description) :
    (token name payload).run d =
      if isReserved name then (.error (.reservedKind name), d)
      else match d.kinds.find? (·.name == name) with
        | some kind =>
          if kind.payload != payload then (.error (.otherPayload name), d) else (.ok (), d)
        | none => (.ok (), { d with kinds := d.kinds ++ [{ name, payload }] }) := by
  unfold token
  cases isReserved name with
  | true => rfl
  | false =>
    simp only [Bool.false_eq_true, if_false, run_get_bind]
    cases d.kinds.find? (·.name == name) with
    | none => rfl
    | some kind =>
      simp only
      split <;> rfl

theorem run_ensureToken (name : String) (d : Description) :
    (ensureToken name).run d =
      if d.kinds.all (·.name != name) then (token name none).run d else (.ok (), d) := by
  unfold ensureToken
  simp only [run_get_bind]
  split <;> rfl

theorem emit_eq_rule (room : Nat) (pattern kind : String) :
    emit room pattern kind = rule room (.text pattern) (.emit kind) := rfl

theorem skip_eq_rule (room : Nat) (pattern : String) :
    skip room pattern = rule room (.text pattern) .skip := rfl

theorem finish_eq_rule (room : Nat) (pattern : String) :
    finish room pattern = rule room (.text pattern) .finish := rfl

end Describe

namespace Description

variable {d d' : Description} {room : Nat} {name kind : String}

/-! ### Calls -/

/-- A call that builds a description. -/
inductive Call where
  /-- Declare a token kind. -/
  | token (name : String) (payload : Option Payload)
  /-- Define a named pattern by its text. -/
  | define (name text : String)
  /-- Define a named pattern by its expression. -/
  | defineAs (name : String) (r : Regex)
  /-- Add a scanning rule. -/
  | rule (pattern : Describe.RulePattern) (action : ScanAction)
  /-- Emit a token on a pattern. -/
  | emit (pattern kind : String)
  /-- Emit a token on one text. -/
  | keyword (text kind : String)
  /-- Drop what a pattern matches. -/
  | skip (pattern : String)
  /-- End the input where a pattern matches. -/
  | finish (pattern : String)
  /-- Add a production. -/
  | production (left : String) (right : List String) (action : Action) (tag : Option String)
  /-- Declare a group of precedences by the name of their associativity. -/
  | group (assoc : String) (names : List String)
  /-- Set or unset the start symbol. -/
  | start (name : Option String)

/-- The step that a call takes, with so much room for the copies of repetitions. -/
def Call.step (room : Nat) : Call → Describe Unit
  | .token name payload => Describe.token name payload
  | .define name text => Describe.define room name text
  | .defineAs name r => Describe.defineAs name r
  | .rule pattern action => Describe.rule room pattern action
  | .emit pattern kind => Describe.emit room pattern kind
  | .keyword text kind => Describe.keyword text kind
  | .skip pattern => Describe.skip room pattern
  | .finish pattern => Describe.finish room pattern
  | .production left right action tag => Describe.production left right action tag
  | .group assoc names => Describe.groupNamed assoc names
  | .start name => Describe.start name

/-- A description after some calls, whether they fail or not. -/
def after (room : Nat) (d : Description) (calls : List Call) : Description :=
  calls.foldl (fun d c => (d.apply (c.step room)).2) d

/-- A token kind has been declared. -/
def Declares (d : Description) (kind : String) : Prop := ∃ k ∈ d.kinds, k.name = kind

/-! ### What a call does -/

/-- What a call may do to a description. -/
structure Effect (c : Call) (d d' : Description) : Prop where
  kinds : ∃ new, d'.kinds = d.kinds ++ new ∧ ∀ k ∈ new, isReserved k.name = false
  rules : ∃ new, d'.rules = d.rules ++ new ∧ ∀ r ∈ new, ∀ kind, r.action = .emit kind →
    d'.Declares kind ∨ isReserved kind = true ∧ ∃ text, c = .keyword text kind
  keyword : ∀ text kind, c = .keyword text kind → ∃ r ∈ d'.rules, r.action = .emit kind
  precedences : ∃ (names : List String) (assoc : Assoc), d'.grammar.precedences =
      d.grammar.precedences ++ names.map (·, ⟨assoc, d'.grammar.levels⟩) ∧
    d.grammar.levels ≤ d'.grammar.levels ∧
    (names ≠ [] → d.grammar.levels < d'.grammar.levels)

/-- Nothing but the named patterns, the productions and the start symbol is changed. -/
structure SameParts (d d' : Description) : Prop where
  kinds : d'.kinds = d.kinds
  rules : d'.rules = d.rules
  precedences : d'.grammar.precedences = d.grammar.precedences
  levels : d'.grammar.levels = d.grammar.levels

theorem SameParts.effect {c : Call} (h : SameParts d d')
    (hc : ∀ text kind, c ≠ .keyword text kind) : Effect c d d' where
  kinds := ⟨[], by rw [h.kinds, List.append_nil], nofun⟩
  rules := ⟨[], by rw [h.rules, List.append_nil], nofun⟩
  keyword := fun text kind hkeyword => absurd hkeyword (hc text kind)
  precedences := by
    refine ⟨[], .left, ?_, h.levels ▸ Nat.le_refl _, fun h => absurd rfl h⟩
    simp [h.precedences]

theorem declares_iff : d.kinds.all (·.name != kind) = false ↔ d.Declares kind := by
  simp [Declares]

/-- What declaring a kind does, unless it is declared: it only fails for a reserved name. -/
theorem run_ensureToken_cases (kind : String) (d : Description) :
    (∃ new, (Describe.ensureToken kind).run d = (.ok (), { d with kinds := d.kinds ++ new }) ∧
      (∀ k ∈ new, isReserved k.name = false) ∧
      Declares { d with kinds := d.kinds ++ new } kind) ∨
    isReserved kind = true ∧
      (Describe.ensureToken kind).run d = (.error (.reservedKind kind), d) := by
  rw [Describe.run_ensureToken]
  cases hall : d.kinds.all (·.name != kind) with
  | false =>
    refine .inl ⟨[], ?_, nofun, ?_⟩
    · simp
    · simpa using declares_iff.1 hall
  | true =>
    have hnone : d.kinds.find? (·.name == kind) = none := by
      simpa [List.find?_eq_none] using hall
    rw [if_pos rfl, Describe.run_token, hnone]
    cases hreserved : isReserved kind with
    | true => exact .inr ⟨rfl, rfl⟩
    | false =>
      refine .inl ⟨[⟨kind, none⟩], rfl, ?_, ⟨kind, none⟩, by simp, rfl⟩
      intro k hk
      obtain rfl := List.mem_singleton.1 hk
      exact hreserved

/-- Kinds and rules are added at the end. -/
theorem effect_append (d : Description) (c : Call) (kinds : List TokenKind)
    (rules : List ScanRule) (hkinds : ∀ k ∈ kinds, isReserved k.name = false)
    (hrules : ∀ r ∈ rules, ∀ kind, r.action = .emit kind →
      Declares { d with kinds := d.kinds ++ kinds } kind ∨
        isReserved kind = true ∧ ∃ text, c = .keyword text kind)
    (hkeyword : ∀ text kind, c = .keyword text kind → ∃ r ∈ rules, r.action = .emit kind) :
    Effect c d { d with kinds := d.kinds ++ kinds, rules := d.rules ++ rules } where
  kinds := ⟨kinds, rfl, hkinds⟩
  rules := ⟨rules, rfl, hrules⟩
  keyword := by
    intro text kind hc
    obtain ⟨r, hr, haction⟩ := hkeyword text kind hc
    exact ⟨r, List.mem_append_right _ hr, haction⟩
  precedences := ⟨[], .left, by simp, Nat.le_refl _, fun h => absurd rfl h⟩

theorem effect_token (name : String) (payload : Option Payload) (d : Description) :
    Effect (.token name payload) d ((Describe.token name payload).run d).2 := by
  have hsame : Effect (.token name payload) d d := SameParts.effect ⟨rfl, rfl, rfl, rfl⟩ (by simp)
  rw [Describe.run_token]
  cases hreserved : isReserved name with
  | true => exact hsame
  | false =>
    cases d.kinds.find? (·.name == name) with
    | some kind =>
      simp only [Bool.false_eq_true, if_false]
      split <;> exact hsame
    | none =>
      have hkinds : ∀ k ∈ [(⟨name, payload⟩ : TokenKind)], isReserved k.name = false := by
        intro k hk
        obtain rfl := List.mem_singleton.1 hk
        exact hreserved
      have heffect := effect_append d (.token name payload) _ [] hkinds nofun (by simp)
      rwa [List.append_nil] at heffect

theorem sameParts_defineAs (name : String) (r : Regex) (d : Description) :
    SameParts d ((Describe.defineAs name r).run d).2 := by
  unfold Describe.defineAs
  rw [Describe.run_get_bind]
  cases d.patterns.any (·.1 == name) <;> exact ⟨rfl, rfl, rfl, rfl⟩

/-- A rule is added, or its pattern cannot be read. -/
theorem exists_rules_addPattern (room : Nat) (pattern : Describe.RulePattern)
    (action : ScanAction) (d : Description) : ∃ rules, (∀ r ∈ rules, r.action = action) ∧
      ((Describe.addPattern room pattern action).run d).2 =
        { d with rules := d.rules ++ rules } := by
  cases pattern with
  | regex r => exact ⟨[⟨r, action, ""⟩], by simp, rfl⟩
  | text text =>
    rw [Describe.addPattern, Describe.run_readPattern_bind]
    cases Regex.parse room text with
    | ok r => exact ⟨[⟨r, action, text⟩], by simp, rfl⟩
    | error fault => exact ⟨[], nofun, by simp⟩

theorem effect_addPattern {c : Call} (room : Nat) (d : Description) (kinds : List TokenKind)
    (pattern : Describe.RulePattern) (action : ScanAction)
    (hc : ∀ text kind, c ≠ .keyword text kind)
    (hkinds : ∀ k ∈ kinds, isReserved k.name = false)
    (hdeclares : ∀ kind, action = .emit kind →
      Declares { d with kinds := d.kinds ++ kinds } kind) :
    Effect c d
      ((Describe.addPattern room pattern action).run { d with kinds := d.kinds ++ kinds }).2 := by
  obtain ⟨rules, hrules, heq⟩ :=
    exists_rules_addPattern room pattern action { d with kinds := d.kinds ++ kinds }
  rw [heq]
  refine effect_append d c kinds rules hkinds (fun r hr kind hkind => .inl (hdeclares kind ?_))
    fun text kind h => absurd h (hc text kind)
  rw [← hrules r hr, hkind]

theorem effect_rule {c : Call} (hc : ∀ text kind, c ≠ .keyword text kind)
    (pattern : Describe.RulePattern) (action : ScanAction) (d : Description) :
    Effect c d ((Describe.rule room pattern action).run d).2 := by
  cases action with
  | skip =>
    have heffect := effect_addPattern room d [] pattern .skip hc (List.forall_mem_nil _) (by simp)
    rwa [List.append_nil] at heffect
  | finish =>
    have heffect := effect_addPattern room d [] pattern .finish hc (List.forall_mem_nil _) (by simp)
    rwa [List.append_nil] at heffect
  | emit kind =>
    have hrun : (Describe.rule room pattern (.emit kind)).run d =
        (Describe.ensureToken kind >>= fun _ =>
          Describe.addPattern room pattern (.emit kind)).run d := rfl
    rw [hrun, Describe.run_bind]
    rcases run_ensureToken_cases kind d with ⟨kinds, heq, hkinds, hdeclares⟩ | ⟨-, heq⟩
    · rw [heq]
      refine effect_addPattern room d kinds pattern (.emit kind) hc hkinds fun other hother => ?_
      cases hother
      exact hdeclares
    · rw [heq]
      exact SameParts.effect ⟨rfl, rfl, rfl, rfl⟩ hc

/-- A keyword's rule is added before its kind is declared. -/
theorem effect_keyword (text kind : String) (d : Description) :
    Effect (.keyword text kind) d ((Describe.keyword text kind).run d).2 := by
  have hrun : (Describe.keyword text kind).run d = (Describe.ensureToken kind).run
      { d with rules := d.rules ++
        [⟨Regex.literal text.toList, .emit kind, Text.quoted text⟩] } := rfl
  have hkeyword : ∀ text' kind', Call.keyword text kind = .keyword text' kind' →
      ∃ r ∈ [(⟨Regex.literal text.toList, .emit kind, Text.quoted text⟩ : ScanRule)],
        r.action = .emit kind' := by
    intro text' kind' h
    cases h
    exact ⟨_, List.mem_singleton_self _, rfl⟩
  rw [hrun]
  rcases run_ensureToken_cases kind _ with ⟨kinds, heq, hkinds, hdeclares⟩ | ⟨hreserved, heq⟩
  · rw [heq]
    refine effect_append d _ kinds _ hkinds (fun r hr other hother => .inl ?_) hkeyword
    obtain rfl := List.mem_singleton.1 hr
    cases hother
    exact hdeclares
  · rw [heq]
    have heffect := effect_append d (.keyword text kind) [] _ (List.forall_mem_nil _)
      (fun r hr other hother => .inr ?_) hkeyword
    · rwa [List.append_nil] at heffect
    · obtain rfl := List.mem_singleton.1 hr
      cases hother
      exact ⟨hreserved, text, rfl⟩

/-! ### Precedences -/

/-- Of the names of a group the first ones get their precedence, up to one that has one. -/
theorem exists_names_assign (p : Precedence) (names : List String) (d : Description) :
    ∃ done : List String, ((Describe.assign p names).run d).2 =
      { d with grammar := { d.grammar with
          precedences := d.grammar.precedences ++ done.map (·, p) } } := by
  induction names generalizing d with
  | nil => exact ⟨[], by simp [Describe.assign]; rfl⟩
  | cons name rest ih =>
    rw [Describe.assign, Describe.run_get_bind]
    cases (d.grammar.precedence? name).isSome with
    | true => exact ⟨[], by simp; rfl⟩
    | false =>
      obtain ⟨done, hdone⟩ := ih { d with grammar := { d.grammar with
        precedences := d.grammar.precedences ++ [(name, p)] } }
      refine ⟨name :: done, Eq.trans ?_ (hdone.trans ?_)⟩
      · rfl
      · simp

theorem effect_group (assoc : String) (names : List String) (d : Description) :
    Effect (.group assoc names) d ((Describe.groupNamed assoc names).run d).2 := by
  unfold Describe.groupNamed
  cases Assoc.ofName? assoc with
  | none => exact SameParts.effect ⟨rfl, rfl, rfl, rfl⟩ (by simp)
  | some assoc =>
    obtain ⟨done, hdone⟩ := exists_names_assign ⟨assoc, d.grammar.levels + 1⟩ names
      { d with grammar := { d.grammar with levels := d.grammar.levels + 1 } }
    have hrun : ((Describe.group assoc names).run d).2 = _ := hdone
    simp only
    rw [hrun]
    exact
      { kinds := ⟨[], by simp, nofun⟩
        rules := ⟨[], by simp, nofun⟩
        keyword := nofun
        precedences := ⟨done, assoc, rfl, Nat.le_succ _, fun _ => Nat.lt_succ_self _⟩ }

/-- **What a call does to a description**, whether it fails or not. -/
theorem effect_step (room : Nat) (d : Description) (c : Call) :
    Effect c d (d.apply (c.step room)).2 := by
  cases c with
  | token name payload => exact effect_token name payload d
  | define name text =>
    have hrun : (Describe.define room name text).run d =
        (Describe.readPattern room text >>= Describe.defineAs name).run d := rfl
    show Effect _ d ((Describe.define room name text).run d).2
    rw [hrun, Describe.run_readPattern_bind]
    cases Regex.parse room text with
    | ok r => exact (sameParts_defineAs name r d).effect (by simp)
    | error fault => exact SameParts.effect ⟨rfl, rfl, rfl, rfl⟩ (by simp)
  | defineAs name r => exact (sameParts_defineAs name r d).effect (by simp)
  | rule pattern action => exact effect_rule (by simp) pattern action d
  | emit pattern kind =>
    show Effect _ d ((Describe.emit room pattern kind).run d).2
    rw [Describe.emit_eq_rule]
    exact effect_rule (by simp) (.text pattern) (.emit kind) d
  | keyword text kind => exact effect_keyword text kind d
  | skip pattern =>
    show Effect _ d ((Describe.skip room pattern).run d).2
    rw [Describe.skip_eq_rule]
    exact effect_rule (by simp) (.text pattern) .skip d
  | finish pattern =>
    show Effect _ d ((Describe.finish room pattern).run d).2
    rw [Describe.finish_eq_rule]
    exact effect_rule (by simp) (.text pattern) .finish d
  | production left right action tag => exact SameParts.effect ⟨rfl, rfl, rfl, rfl⟩ (by simp)
  | group assoc names => exact effect_group assoc names d
  | start name => exact SameParts.effect ⟨rfl, rfl, rfl, rfl⟩ (by simp)

/-! ### What holds of every description -/

/-- What holds of a description that some calls have built. -/
structure BuiltBy (calls : List Call) (d : Description) : Prop where
  /-- No declared kind has a reserved name. -/
  unreserved : ∀ k ∈ d.kinds, isReserved k.name = false
  /-- A kind that a rule emits is declared, unless it comes from a keyword and is reserved. -/
  declared : ∀ r ∈ d.rules, ∀ kind, r.action = .emit kind →
    d.Declares kind ∨ isReserved kind = true ∧ ∃ text, .keyword text kind ∈ calls
  /-- A keyword's rule is there, whatever became of its kind. -/
  kept : ∀ text kind, .keyword text kind ∈ calls → ∃ r ∈ d.rules, r.action = .emit kind
  /-- No level is above the last one. -/
  level_le : ∀ e ∈ d.grammar.precedences, e.2.level ≤ d.grammar.levels
  /-- A level has one associativity. -/
  assoc_eq : ∀ e ∈ d.grammar.precedences, ∀ f ∈ d.grammar.precedences,
    e.2.level = f.2.level → e.2.assoc = f.2.assoc

theorem builtBy_nil : BuiltBy [] {} := ⟨nofun, nofun, nofun, nofun, nofun⟩

theorem Declares.mono {new : List TokenKind} (h : d.Declares kind)
    (hkinds : d'.kinds = d.kinds ++ new) : d'.Declares kind := by
  obtain ⟨k, hk, hname⟩ := h
  exact ⟨k, hkinds ▸ List.mem_append_left _ hk, hname⟩

/-- **Every call keeps what holds of a description.** -/
theorem BuiltBy.call {calls : List Call} {c : Call} (h : BuiltBy calls d) (he : Effect c d d') :
    BuiltBy (calls ++ [c]) d' := by
  obtain ⟨kinds, hkinds, hunreserved⟩ := he.kinds
  obtain ⟨rules, hrules, hemit⟩ := he.rules
  obtain ⟨names, assoc, hprecedences, hle, hlt⟩ := he.precedences
  -- an entry is an old one, or one of the new level
  have hentry : ∀ e ∈ d'.grammar.precedences, e ∈ d.grammar.precedences ∨
      e.2 = ⟨assoc, d'.grammar.levels⟩ ∧ d.grammar.levels < d'.grammar.levels := by
    intro e hmem
    rw [hprecedences, List.mem_append] at hmem
    refine hmem.imp id fun hnew => ?_
    obtain ⟨name, hname, rfl⟩ := List.mem_map.1 hnew
    exact ⟨rfl, hlt (List.ne_nil_of_mem hname)⟩
  constructor
  case unreserved =>
    intro k hk
    rw [hkinds, List.mem_append] at hk
    exact hk.elim (h.unreserved k) (hunreserved k)
  case declared =>
    intro r hr kind hkind
    rw [hrules, List.mem_append] at hr
    rcases hr with hr | hr
    · refine (h.declared r hr kind hkind).imp (·.mono hkinds) (And.imp_right ?_)
      exact fun ⟨text, hmem⟩ => ⟨text, List.mem_append_left _ hmem⟩
    · refine (hemit r hr kind hkind).imp id (And.imp_right ?_)
      rintro ⟨text, rfl⟩
      exact ⟨text, List.mem_append_right _ (List.mem_singleton_self _)⟩
  case kept =>
    intro text kind hmem
    rcases List.mem_append.1 hmem with hmem | hmem
    · obtain ⟨r, hr, hkind⟩ := h.kept text kind hmem
      exact ⟨r, hrules ▸ List.mem_append_left _ hr, hkind⟩
    · exact he.keyword text kind (List.mem_singleton.1 hmem).symm
  case level_le =>
    intro e hmem
    rcases hentry e hmem with hold | ⟨hnew, -⟩
    · exact Nat.le_trans (h.level_le e hold) hle
    · exact Nat.le_of_eq (congrArg Precedence.level hnew)
  case assoc_eq =>
    intro e he f hf hlevel
    rcases hentry e he with hold | ⟨hnew, hmore⟩
    · rcases hentry f hf with hold' | ⟨hnew', hmore⟩
      · exact h.assoc_eq e hold f hold' hlevel
      · have hle := h.level_le e hold
        rw [hlevel, hnew'] at hle
        exact absurd hmore (Nat.not_lt.2 hle)
    · rcases hentry f hf with hold' | ⟨hnew', -⟩
      · have hle := h.level_le f hold'
        rw [← hlevel, hnew] at hle
        exact absurd hmore (Nat.not_lt.2 hle)
      · rw [hnew, hnew']

/-- **What holds of every description that can be built.** -/
theorem builtBy_after (room : Nat) (calls : List Call) :
    BuiltBy calls (after room {} calls) := by
  induction calls using List.reverseRecOn with
  | nil => exact builtBy_nil
  | append_singleton calls c ih =>
    have hafter : after room {} (calls ++ [c]) =
        ((after room {} calls).apply (c.step room)).2 := by
      rw [after, List.foldl_append]
      rfl
    rw [hafter]
    exact ih.call (effect_step room _ c)

end Description

end LexParse
