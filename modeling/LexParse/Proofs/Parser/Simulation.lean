import LexParse.Parser
import LexParse.Proofs.Lr.Machine

/-!
# The parser runs the machine

The parser's stack is that of the machine of states and trees, with the value of each tree in its
place and one more entry at the bottom. A step of the parser does what the policy of its table says
in the state on top; the lemmas here say what that is, action by action. When an action of a
production has no value the parser stops with the fault that evaluating its tree gives.
-/

namespace LexParse

theorem Tree.evaluateAll_append {g : Grammar} {ts ts' : List Tree} {vs vs' : List Value}
    (h : evaluateAll g ts = .ok vs) (h' : evaluateAll g ts' = .ok vs') :
    evaluateAll g (ts ++ ts') = .ok (vs ++ vs') := by
  induction ts generalizing vs with
  | nil =>
    cases h
    exact h'
  | cons t ts ih =>
    simp only [evaluateAll] at h
    cases ht : t.evaluate g with
    | error fault =>
      rw [ht] at h
      cases h
    | ok v =>
      cases hts : evaluateAll g ts with
      | error fault =>
        rw [ht, hts] at h
        cases h
      | ok ws =>
        rw [ht, hts] at h
        cases h
        simp [evaluateAll, ht, ih hts]

end LexParse

namespace LexParse.Lr

open Context

variable {g : Grammar} {G : Graph}

/-- The parser's stack is that of the machine, with values in place of trees. -/
inductive Represents (g : Grammar) : List Frame → List Entry → Prop where
  /-- At the bottom lies the first state. -/
  | bottom {v : Value} {position : Position} : Represents g [⟨0, v, position⟩] []
  /-- An entry with the value of its tree. -/
  | cons {e : Entry} {v : Value} {position : Position} {frames : List Frame} {st : List Entry} :
      Represents g frames st → e.tree.evaluate g = .ok v →
      Represents g (⟨e.state, v, position⟩ :: frames) (e :: st)

namespace Represents

variable {frames : List Frame} {st : List Entry}

theorem exists_top (h : Represents g frames st) :
    ∃ top rest, frames = top :: rest ∧ top.state = topState st := by
  cases h with
  | bottom => exact ⟨_, _, rfl, rfl⟩
  | cons _ _ => exact ⟨_, _, rfl, rfl⟩

/-- The topmost frames carry the values of the topmost trees. -/
theorem split {popped rest : List Entry} (h : Represents g frames (popped ++ rest)) :
    (frames.take popped.length).length = popped.length ∧
      Represents g (frames.drop popped.length) rest ∧
      Tree.evaluateAll g (treesOf popped) =
        .ok ((frames.take popped.length).reverse.map (·.value)) := by
  induction popped generalizing frames with
  | nil => exact ⟨rfl, h, rfl⟩
  | cons e popped ih =>
    cases h with
    | @cons _ v position frames _ hframes hv =>
      obtain ⟨hlen, hrest, hvalues⟩ := ih hframes
      refine ⟨by simp [hlen], hrest, ?_⟩
      have hone : Tree.evaluateAll g [e.tree] = .ok [v] := by simp [Tree.evaluateAll, hv]
      rw [treesOf_cons, Tree.evaluateAll_append hvalues hone]
      simp

end Represents

/-! ### Terminals and kinds -/

section
variable {a : Nat} {kind : String}

/-- The column of a kind is the first terminal of that name. -/
theorem terminalNumber?_eq_some_iff : (tableOf g G).terminalNumber? kind = some a ↔
    (g.terminals.map (·.name))[a]? = some kind ∧
      ∀ b < a, (g.terminals.map (·.name))[b]? ≠ some kind := by
  have hlist : ∀ names : Array String, names.idxOf? kind = names.toList.idxOf? kind := by
    rintro ⟨names⟩
    simp
  rw [ParseTable.terminalNumber?, hlist, List.idxOf?_eq_some_iff]
  show (∃ h : a < (g.terminals.map (·.name)).toList.length, _) ↔ _
  constructor
  · rintro ⟨hlt, hget, hfirst⟩
    refine ⟨Array.getElem?_toList ▸ List.getElem?_eq_some_iff.2 ⟨hlt, hget⟩, fun b hb heq => ?_⟩
    obtain ⟨hb', heq⟩ := List.getElem?_eq_some_iff.1 (Array.getElem?_toList.trans heq)
    exact hfirst b hb heq
  · rintro ⟨hget, hfirst⟩
    obtain ⟨hlt, hget⟩ := List.getElem?_eq_some_iff.1 (Array.getElem?_toList.trans hget)
    refine ⟨hlt, hget, fun b hb heq => hfirst b hb ?_⟩
    rw [← Array.getElem?_toList]
    exact List.getElem?_eq_some_iff.2 ⟨Nat.lt_trans hb hlt, heq⟩

/-- The kind of a token is the name of its terminal. -/
theorem symbolName_of_terminalNumber? (h : (tableOf g G).terminalNumber? kind = some a) :
    g.symbolName (.terminal a) = kind := by
  have hget := (terminalNumber?_eq_some_iff.1 h).1
  rw [Array.getElem?_map] at hget
  obtain ⟨t, ht, rfl⟩ := Option.map_eq_some_iff.1 hget
  simp [Grammar.symbolName, ht]

/-- Terminal zero is the end of the input. -/
theorem terminalNumber?_endKind_iff (hg : g.WellFormed)
    (h : (tableOf g G).terminalNumber? kind = some a) : kind = Token.endKind ↔ a = 0 := by
  obtain ⟨hget, hfirst⟩ := terminalNumber?_eq_some_iff.1 h
  constructor
  · rintro rfl
    by_contra hne
    exact hfirst 0 (Nat.pos_of_ne_zero hne) hg.end_first
  · rintro rfl
    exact Option.some.inj (hget.symm.trans hg.end_first)

/-- A token that is taken does not end the input. -/
theorem isEnd_of_shift (hG : IsAutomaton g G) (hg : g.WellFormed) {st : List Entry}
    (hst : Stacked g G st) {token : Token} {n : Nat}
    (ha : (tableOf g G).terminalNumber? token.kind = some a)
    (hact : policyOf g G (topState st) a = .shift n) : token.isEnd = false := by
  have hne := (licensed_ofGraph hG hg).ne_zero_of_shift hG (hst.topState_lt hG hg) hact
  rw [Bool.eq_false_iff]
  exact fun hend => hne ((terminalNumber?_endKind_iff hg ha).1 (beq_iff_eq.1 hend))

end

/-! ### Steps -/

/-- From a list there is always a token to look at. -/
theorem exists_pull_list (position : Position) (tokens : List Token) :
    ∃ token rest, TokenSource.list.pull position tokens = (.ok token, rest) := by
  cases tokens <;> exact ⟨_, _, rfl⟩

section
variable {σ : Type} {source : TokenSource σ} {c : Config σ} {st : List Entry} {a n : Nat}

/-- A token of a kind that the grammar does not know is rejected. -/
theorem step_unknown (hrep : Represents g c.stack st)
    (ha : (tableOf g G).terminalNumber? c.token.kind = none) :
    step (tableOf g G) source c =
      .stop none (.error (.rejected (.unknownKind c.token))) c.source := by
  obtain ⟨top, rest, hstack, -⟩ := hrep.exists_top
  obtain ⟨stack, token, s⟩ := c
  obtain rfl : stack = top :: rest := hstack
  rw [step]
  simp only [ha]

/-- A step looks at the topmost frame and the terminal of the token. -/
theorem step_of_top {top : Frame} {rest : List Frame} (hstack : c.stack = top :: rest)
    (ha : (tableOf g G).terminalNumber? c.token.kind = some a) :
    step (tableOf g G) source c =
      match (tableOf g G).actionAt top.state a with
      | .shift state =>
        let stack := { state, value := c.token.value, position := c.token.position } :: c.stack
        match source.pull c.token.position c.source with
        | (.ok token, rest) => .next ⟨stack, .shift, c.token⟩ { stack, token, source := rest }
        | (.error fault, rest) => .stop (some ⟨stack, .shift, c.token⟩) (.error (.scan fault)) rest
      | .reduce n =>
        match reduceStack (tableOf g G) ((tableOf g G).reductions.getD n default) c.stack
          c.token with
        | .ok stack => .next ⟨stack, .reduce, c.token⟩ { c with stack }
        | .error failure => .stop none (.error failure) c.source
      | .accept => .stop (some ⟨c.stack, .accept, c.token⟩) (.ok top.value) c.source
      | .error => .stop none
        (.error (.rejected (.unexpected c.token ((tableOf g G).expected top.state)))) c.source := by
  obtain ⟨stack, token, s⟩ := c
  obtain rfl : stack = top :: rest := hstack
  unfold step
  generalize (tableOf g G).terminalNumber? token.kind = found at ha ⊢
  subst ha
  rfl

/-- The parser takes the token. -/
theorem step_shift (hrep : Represents g c.stack st)
    (ha : (tableOf g G).terminalNumber? c.token.kind = some a)
    (hact : policyOf g G (topState st) a = .shift n) : ∃ stack,
    Represents g stack (⟨n, .leaf a c.token.value⟩ :: st) ∧ step (tableOf g G) source c =
      match source.pull c.token.position c.source with
      | (.ok token, rest) => .next ⟨stack, .shift, c.token⟩ { stack, token, source := rest }
      | (.error fault, rest) =>
        .stop (some ⟨stack, .shift, c.token⟩) (.error (.scan fault)) rest := by
  obtain ⟨top, rest, hstack, htop⟩ := hrep.exists_top
  have hact := (policyOf_eq_iff (x := .shift n) nofun).1 hact
  rw [← htop] at hact
  refine ⟨⟨n, c.token.value, c.token.position⟩ :: c.stack, .cons (e := ⟨n, _⟩) hrep rfl, ?_⟩
  rw [step_of_top hstack ha, hact]

/-- The parser accepts. -/
theorem step_accept {e : Entry} (hrep : Represents g c.stack (e :: st))
    (ha : (tableOf g G).terminalNumber? c.token.kind = some a)
    (hact : policyOf g G e.state a = .accept) : ∃ event v, e.tree.evaluate g = .ok v ∧
    step (tableOf g G) source c = .stop (some event) (.ok v) c.source := by
  have hact := (policyOf_eq_iff (x := .accept) nofun).1 hact
  obtain ⟨top, rest, hstack, htop⟩ := hrep.exists_top
  have htop : top.state = e.state := htop
  rw [hstack] at hrep
  cases hrep with
  | cons _ hv => exact ⟨_, _, hv, by rw [step_of_top hstack ha, hact]⟩

/-- The parser rejects the token, and says what could have stood there. -/
theorem step_unexpected (hrep : Represents g c.stack st)
    (ha : (tableOf g G).terminalNumber? c.token.kind = some a)
    (hact : policyOf g G (topState st) a = .error) : step (tableOf g G) source c =
      .stop none (.error (.rejected (.unexpected c.token ((tableOf g G).expected (topState st)))))
        c.source := by
  obtain ⟨top, rest, hstack, htop⟩ := hrep.exists_top
  have hact := (policyOf_eq_iff (x := .error) nofun).1 hact
  rw [← htop] at hact
  rw [step_of_top hstack ha, hact, htop]

/-- The parser rejects the token. -/
theorem step_error (hrep : Represents g c.stack st)
    (ha : (tableOf g G).terminalNumber? c.token.kind = some a)
    (hact : policyOf g G (topState st) a = .error) : ∃ rejection,
    step (tableOf g G) source c = .stop none (.error (.rejected rejection)) c.source :=
  ⟨_, step_unexpected hrep ha hact⟩

/-- The parser reduces, or finds that the action of the production has no value. -/
theorem step_reduce (hG : IsAutomaton g G) (hg : g.WellFormed) (hst : Stacked g G st)
    (hrep : Represents g c.stack st) (ha : (tableOf g G).terminalNumber? c.token.kind = some a)
    {p : Nat} (hact : policyOf g G (topState st) a = .reduce p) :
    ∃ st', ReduceStep g G (policyOf g G) a 0 st st' ∧
      ((∃ stack, Represents g stack st' ∧ step (tableOf g G) source c =
          .next ⟨stack, .reduce, c.token⟩ { c with stack }) ∨
        ∃ e fault, e ∈ st' ∧ e.tree.evaluate g = .error fault ∧
          step (tableOf g G) source c = .stop none (.error (.value fault)) c.source) := by
  obtain ⟨top, below, hstack, htop⟩ := hrep.exists_top
  obtain ⟨r, hr, hprod⟩ := policyOf_eq_reduce_iff.1 hact
  obtain ⟨i, -, q, hq, -, -, hprod', hred⟩ :=
    exists_item_of_actionAt hG hg (hst.topState_lt hG hg) hr
  obtain rfl : i.production = p := hprod'.symm.trans hprod
  obtain ⟨q', popped, rest, rfl, hq', hq'', hlen, -, hrest, n, ht⟩ :=
    hst.exists_popped hG hg (licensed_ofGraph hG hg) hact
  obtain rfl : q = q' := Option.some.inj (hq.symm.trans hq')
  refine ⟨_, .intro hact hq hlen (Nat.zero_le _) ht, ?_⟩
  obtain ⟨hpop, hbelow, hvalues⟩ := hrep.split
  obtain ⟨top', below', hdrop, htop'⟩ := hbelow.exists_top
  rw [hlen] at hpop hbelow hvalues hdrop
  have hgoto : (tableOf g G).gotoAt? top'.state q.left = some n := by
    rw [htop']
    exact (gotoAt?_ofGraph hG hg (hrest.topState_lt hG hg)).2 ht
  have heval : Tree.evaluate g (.node (i.production - 1) (treesOf popped)) =
      q.action ((c.stack.take q.right.length).reverse.map (·.value)) := by
    simp [Tree.evaluate, hvalues, hq'']
  rw [step_of_top hstack ha, htop, hr]
  simp only [hred, reduceStack, Production.toReduction, hdrop, List.head?_cons, Option.bind_some,
    hgoto]
  cases hv : q.action ((c.stack.take q.right.length).reverse.map (·.value)) with
  | ok v =>
    rw [hv] at heval
    refine .inl ⟨_, ?_, rfl⟩
    rw [← hdrop]
    exact .cons (e := ⟨n, _⟩) hbelow heval
  | error fault =>
    rw [hv] at heval
    exact .inr ⟨_, fault, List.mem_cons_self .., heval, rfl⟩

end

end LexParse.Lr
