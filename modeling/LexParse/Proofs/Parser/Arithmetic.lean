import LexParse.Description.Builtin
import LexParse.Proofs.Parser.Climbing
import LexParse.Proofs.Parser.Termination

/-!
# The generated parser for arithmetic

The grammar of `Builtin.arithmetic` is ambiguous, and in many cells of its table a precedence has
taken one of two candidates away. What is left still accepts every sentence, and groups it as
precedence climbing does.

The states of the automaton are places where an expression is to come: as the whole input, in
parentheses, or as the right operand of an operator, the latter two within parentheses or not. In
each the table does what the level of the place says (`Arranged`), and that is checked once for
either construction. Then the machine goes along with the reference, call by call: where the
reference takes an expression off the input, the machine comes from the state before the place to
the state behind it, with a tree of the same value on its stack.

## What is proved

* `arranged_build`: the table is arranged by levels.
* `go_of_climb`: the machine climbs, and so it accepts what has a value (`accepts_of_value`).
* `isExpression_of_valid`: the leaves of a tree are an expression, which has a value.
* `exists_value_iff_sentence`: so the reference has a value just for the sentences.
* `exists_result_of_arithmetic`: from the description to the value that a parse returns.
-/

namespace LexParse.Arithmetic

open Lr Lr.Context Relation

/-! ### The grammar -/

/-- The terminal of integers. -/
abbrev int : Nat := 1

/-- The terminal of opening parentheses. -/
abbrev opening : Nat := 6

/-- The terminal of closing parentheses. -/
abbrev closing : Nat := 7

/-- The terminal of an operator. -/
def Operator.terminal : Operator → Nat
  | .plus => 2
  | .minus => 3
  | .times => 4
  | .pow => 5

/-- The number of its production. -/
def Operator.production : Operator → Nat
  | .plus => 0
  | .minus => 1
  | .times => 2
  | .pow => 3

/-- An expression, as a symbol. -/
def expression : Symbol := .nonterminal 1

/-- The grammar of arithmetic, as far as it matters here. -/
structure IsGrammar (g : Grammar) : Prop where
  rights : g.productions.map (fun p => (p.left, p.right)) =
    Operator.all.map (fun op => (1, [expression, .terminal op.terminal, expression])) ++
      [(1, [.terminal opening, expression, .terminal closing]), (1, [.terminal int])]
  actions : g.productions.map (·.action) =
    Operator.all.map (fun op => .tupleOf (.str op.sign) [0, 2]) ++ [.pick 1, .first]
  names : (g.terminals.map (·.name)).toList =
    ["$EOF", "INT"] ++ Operator.all.map Operator.kind ++ ["LPAREN", "RPAREN"]
  start : g.start = 1

theorem actions_arithmetic : Builtin.arithmetic.grammar.productions.map (·.action) =
    Operator.all.map (fun op => .tupleOf (.str op.sign) [0, 2]) ++ [.pick 1, .first] := by
  with_unfolding_all rfl

theorem isGrammar_of_resolve {g : Grammar} (h : Builtin.arithmetic.resolveGrammar = .ok g) :
    IsGrammar g := by
  have hrun : ∃ g ∈ Builtin.arithmetic.resolveGrammar.toOption,
      g.productions.map (fun p => (p.left, p.right)) =
          Operator.all.map (fun op => (1, [expression, .terminal op.terminal, expression])) ++
            [(1, [.terminal opening, expression, .terminal closing]), (1, [.terminal int])] ∧
        (g.terminals.map (·.name)).toList =
          ["$EOF", "INT"] ++ Operator.all.map Operator.kind ++ ["LPAREN", "RPAREN"] ∧
        g.start = 1 := by
    decide +kernel
  obtain ⟨g', hg', hrights, hnames, hstart⟩ := hrun
  obtain rfl : g = g' := Except.ok.inj (h.symm.trans (toOption_eq_some_iff.1 hg'))
  refine ⟨hrights, ?_, hnames, hstart⟩
  rw [← actions_arithmetic]
  obtain ⟨-, -, hproductions, -⟩ := GrammarDecl.resolve_eq_ok h
  exact (map_eq_of_forall₂ (forall₂_of_mapM_eq_ok hproductions) fun p q hpq =>
    (GrammarDecl.resolveProduction_eq_ok hpq).2.2.symm).symm

/-! ### The states -/

/-- Where an expression is to come. -/
inductive Place where
  /-- As the whole input. -/
  | whole
  /-- In parentheses, which may stand within others. -/
  | inside (within : Bool)
  /-- As the right operand of an operator, which may stand within parentheses. -/
  | operand (within : Bool) (op : Operator)

namespace Place

/-- The place is within parentheses. -/
def within : Place → Bool
  | .whole => false
  | .inside _ => true
  | .operand within _ => within

/-- How tight the operators of the expression bind at least. -/
def least : Place → Nat
  | .whole | .inside _ => 1
  | .operand _ op => op.operandLevel

/-- All of them. -/
def all : List Place :=
  .whole :: [false, true].flatMap fun within =>
    .inside within :: Operator.all.map (.operand within)

theorem mem_all (p : Place) : p ∈ all := by
  rcases p with _ | within | ⟨within, op⟩
  · exact List.mem_cons_self ..
  · cases within <;> simp [all]
  · cases within <;> simp [all, Operator.mem_all]

variable (G : Graph)

/-- The state that a symbol leads to. -/
def successor (s : Nat) (X : Symbol) : Nat := ((G.transitions s).lookup X).getD 0

/-- A state in which an expression may begin, within parentheses or not. -/
def outset : Bool → Nat
  | false => 0
  | true => successor G 0 (.terminal opening)

/-- The state in which the expression is to begin. -/
def before : Place → Nat
  | .whole => 0
  | .inside within => successor G (outset G within) (.terminal opening)
  | .operand within op =>
    successor G (successor G (outset G within) expression) (.terminal op.terminal)

/-- The state that the expression leads to. -/
def after (p : Place) : Nat := successor G (p.before G) expression

/-- The state that an integer leads to. -/
def integer (within : Bool) : Nat := successor G (outset G within) (.terminal int)

/-- The state that a closing parenthesis leads to. -/
def close (within : Bool) : Nat := successor G ((inside within).after G) (.terminal closing)

/-- What can follow an expression within parentheses, or outside of them, but for operators. -/
def closer : Bool → Nat
  | false => 0
  | true => closing

/-- What can follow an expression. -/
def followers (within : Bool) : List Nat := closer within :: Operator.all.map Operator.terminal

end Place

/-- The table does at each place what the levels of the operators say. -/
structure Arranged (g : Grammar) (G : Graph) : Prop where
  /-- An expression begins with an integer or a parenthesis, and goes on with tight operators. -/
  places : ∀ p ∈ Place.all, policyOf g G (p.before G) int = .shift (Place.integer G p.within) ∧
    policyOf g G (p.before G) opening = .shift ((Place.inside p.within).before G) ∧
    (expression, p.after G) ∈ G.transitions (p.before G) ∧
    ∀ op ∈ Operator.all, p.least ≤ op.level →
      policyOf g G (p.after G) op.terminal = .shift ((Place.operand p.within op).before G)
  /-- Integers and groups are reduced on whatever can follow. -/
  reduced : ∀ within ∈ [false, true], ∀ a ∈ Place.followers within,
    policyOf g G (Place.integer G within) a = .reduce 6 ∧
    policyOf g G (Place.close G within) a = .reduce 5
  /-- Parentheses are closed. -/
  closed : ∀ within ∈ [false, true],
    policyOf g G ((Place.inside within).after G) closing = .shift (Place.close G within)
  /-- Operators are reduced on looser ones and where the expression ends. -/
  joined : ∀ within ∈ [false, true], ∀ op ∈ Operator.all,
    policyOf g G ((Place.operand within op).after G) (Place.closer within) =
      .reduce (op.production + 1) ∧
    ∀ op' ∈ Operator.all, op'.level < op.operandLevel →
      policyOf g G ((Place.operand within op).after G) op'.terminal = .reduce (op.production + 1)
  /-- The whole input is accepted. -/
  accepted : policyOf g G (Place.whole.after G) 0 = .accept

instance (g : Grammar) (G : Graph) : Decidable (Arranged g G) :=
  decidable_of_iff (_ ∧ _ ∧ _ ∧ _ ∧ _)
    ⟨fun ⟨h₁, h₂, h₃, h₄, h₅⟩ => ⟨h₁, h₂, h₃, h₄, h₅⟩,
      fun ⟨h₁, h₂, h₃, h₄, h₅⟩ => ⟨h₁, h₂, h₃, h₄, h₅⟩⟩

theorem arranged_build {g : Grammar} (h : Builtin.arithmetic.resolveGrammar = .ok g)
    (method : Method) : Arranged g (Graph.build (ofGrammar g) method) := by
  have hrun : ∀ method, ∃ g ∈ Builtin.arithmetic.resolveGrammar.toOption,
      Arranged g (Graph.build (ofGrammar g) method) := by
    intro method
    cases method <;> decide +kernel
  obtain ⟨g', hg', harr⟩ := hrun method
  obtain rfl : g = g' := Except.ok.inj (h.symm.trans (toOption_eq_some_iff.1 hg'))
  exact harr

/-! ### Tokens and trees -/

section
variable {g : Grammar} {token : Token} {op : Operator} {tokens : List Token}

/-- The leaves of tokens. -/
def leaves (g : Grammar) (tokens : List Token) : List (Nat × Value) := tokens.map g.leafOf

@[simp] theorem leaves_nil : leaves g [] = [] := rfl

@[simp] theorem leaves_cons : leaves g (token :: tokens) = g.leafOf token :: leaves g tokens := rfl

/-- The kind of a token by the terminal of its leaf. -/
theorem IsGrammar.kind_of_leafOf (hg : IsGrammar g) {n : Nat} {kind : String}
    (h : (g.leafOf token).1 = n) (hkind : (["$EOF", "INT"] ++ Operator.all.map Operator.kind ++
      ["LPAREN", "RPAREN"])[n]? = some kind) : token.kind = kind := by
  rw [← hg.names] at hkind
  obtain ⟨hlt, hget⟩ := List.getElem?_eq_some_iff.1 hkind
  subst h
  rw [← hget]
  exact (List.getElem_idxOf hlt).symm

/-- A production by its place. -/
theorem exists_production_of_map {n : Nat} {right : List Symbol} {action : Action}
    (hright : (g.productions.map fun p => (p.left, p.right))[n]? = some (1, right))
    (haction : (g.productions.map (·.action))[n]? = some action) :
    ∃ q, g.productions[n]? = some q ∧ q.left = 1 ∧ q.right = right ∧ q.action = action := by
  rw [List.getElem?_map] at hright haction
  obtain ⟨q, hq, heq⟩ := Option.map_eq_some_iff.1 hright
  obtain ⟨q', hq', rfl⟩ := Option.map_eq_some_iff.1 haction
  obtain rfl := Option.some.inj (hq.symm.trans hq')
  obtain ⟨hleft, hright⟩ := Prod.mk.inj heq
  exact ⟨q, hq, hleft, hright, rfl⟩

namespace IsGrammar

variable (hg : IsGrammar g)

include hg

theorem leafOf_int (h : token.kind = "INT") : g.leafOf token = (int, token.value) := by
  rw [Grammar.leafOf, hg.names, h]
  rfl

theorem leafOf_opening (h : token.kind = "LPAREN") : g.leafOf token = (opening, token.value) := by
  rw [Grammar.leafOf, hg.names, h]
  rfl

theorem leafOf_closing (h : token.kind = "RPAREN") : g.leafOf token = (closing, token.value) := by
  rw [Grammar.leafOf, hg.names, h]
  rfl

theorem leafOf_operator (h : token.kind = op.kind) :
    g.leafOf token = (op.terminal, token.value) := by
  rw [Grammar.leafOf, hg.names, h]
  cases op <;> rfl

theorem operator_production (op : Operator) : ∃ q, g.productions[op.production]? = some q ∧
    q.left = 1 ∧ q.right = [expression, .terminal op.terminal, expression] ∧
    q.action = .tupleOf (.str op.sign) [0, 2] := by
  apply exists_production_of_map
  · rw [hg.rights]
    cases op <;> rfl
  · rw [hg.actions]
    cases op <;> rfl

theorem group_production : ∃ q, g.productions[4]? = some q ∧ q.left = 1 ∧
    q.right = [.terminal opening, expression, .terminal closing] ∧ q.action = .pick 1 := by
  apply exists_production_of_map
  · rw [hg.rights]
    rfl
  · rw [hg.actions]
    rfl

theorem int_production : ∃ q, g.productions[5]? = some q ∧ q.left = 1 ∧
    q.right = [.terminal int] ∧ q.action = .first := by
  apply exists_production_of_map
  · rw [hg.rights]
    rfl
  · rw [hg.actions]
    rfl

/-- There are no other productions. -/
theorem production_cases {n : Nat} {q : Production} (hq : g.productions[n]? = some q) :
    (∃ op : Operator, q.right = [expression, .terminal op.terminal, expression] ∧
      q.action = .tupleOf (.str op.sign) [0, 2]) ∨
    q.right = [.terminal opening, expression, .terminal closing] ∧ q.action = .pick 1 ∨
    q.right = [.terminal int] ∧ q.action = .first := by
  have hlt : n < 6 := by
    have hlen := congrArg List.length hg.rights
    rw [List.length_map] at hlen
    exact Nat.lt_of_lt_of_eq (List.getElem?_eq_some_iff.1 hq).1 hlen
  have hoperator : ∀ op : Operator, n = op.production →
      q.right = [expression, .terminal op.terminal, expression] ∧
        q.action = .tupleOf (.str op.sign) [0, 2] := by
    rintro op rfl
    obtain ⟨q', hq', -, hrest⟩ := hg.operator_production op
    exact Option.some.inj (hq'.symm.trans hq) ▸ hrest
  match n, hlt with
  | 0, _ => exact .inl ⟨.plus, hoperator .plus rfl⟩
  | 1, _ => exact .inl ⟨.minus, hoperator .minus rfl⟩
  | 2, _ => exact .inl ⟨.times, hoperator .times rfl⟩
  | 3, _ => exact .inl ⟨.pow, hoperator .pow rfl⟩
  | 4, _ =>
    obtain ⟨q', hq', -, hrest⟩ := hg.group_production
    exact .inr (.inl (Option.some.inj (hq'.symm.trans hq) ▸ hrest))
  | 5, _ =>
    obtain ⟨q', hq', -, hrest⟩ := hg.int_production
    exact .inr (.inr (Option.some.inj (hq'.symm.trans hq) ▸ hrest))

/-- Every action has a value. -/
theorem total : g.Total := by
  intro q hq values hlen
  obtain ⟨n, hn⟩ := List.mem_iff_getElem?.1 hq
  rcases hg.production_cases hn with ⟨op, -, haction⟩ | ⟨hright, haction⟩ | ⟨-, haction⟩
  · exact ⟨_, by rw [haction]; rfl⟩
  · rw [hright] at hlen
    obtain ⟨x, y, z, rfl⟩ := List.length_eq_three.1 hlen
    exact ⟨y, by rw [haction]; rfl⟩
  · rw [haction]
    cases values <;> exact ⟨_, rfl⟩

/-- Nothing in the grammar recurs without taking a token. -/
theorem not_cyclic_and_not_hiddenLeft (hwf : g.WellFormed) : ¬ g.Cyclic ∧ ¬ g.HiddenLeft := by
  have hright : ∀ q ∈ g.productions, q.right ≠ [] ∧ ∀ n, q.right ≠ [.nonterminal n] := by
    intro q hq
    obtain ⟨n, hn⟩ := List.mem_iff_getElem?.1 hq
    rcases hg.production_cases hn with ⟨op, hright, -⟩ | ⟨hright, -⟩ | ⟨hright, -⟩ <;>
      simp [hright]
  exact ⟨not_cyclic_of_ne_singleton hwf (fun q hq => (hright q hq).1)
    fun q hq n _ => (hright q hq).2 n, not_hiddenLeft_of_ne_nil fun q hq => (hright q hq).1⟩

end IsGrammar

end

/-! ### Runs -/

section
variable {g : Grammar} {G : Graph} {st : List Lr.Entry} {p : Place} {l : List (Nat × Value)}
  {t u : Tree} {op : Operator} {v w : Value}

theorem IsGrammar.evaluate_int (hg : IsGrammar g) :
    Tree.evaluate g (.node 5 [.leaf int v]) = .ok v := by
  obtain ⟨q, hq, -, -, haction⟩ := hg.int_production
  simp [Tree.evaluate, Tree.evaluateAll, hq, haction, Action.first]

theorem IsGrammar.evaluate_group (hg : IsGrammar g) (ht : t.evaluate g = .ok v) {x y : Value} :
    Tree.evaluate g (.node 4 [.leaf opening x, t, .leaf closing y]) = .ok v := by
  obtain ⟨q, hq, -, -, haction⟩ := hg.group_production
  simp only [Tree.evaluate, Tree.evaluateAll, ht, List.getD_eq_getElem?_getD, hq, haction,
    Option.getD_some]
  rfl

theorem IsGrammar.evaluate_operator (hg : IsGrammar g) (ht : t.evaluate g = .ok v)
    (hu : u.evaluate g = .ok w) {x : Value} :
    Tree.evaluate g (.node op.production [t, .leaf op.terminal x, u]) = .ok (tuple op v w) := by
  obtain ⟨q, hq, -, -, haction⟩ := hg.operator_production op
  simp only [Tree.evaluate, Tree.evaluateAll, ht, hu, List.getD_eq_getElem?_getD, hq, haction,
    Option.getD_some]
  rfl

/-- What is left of some input can follow an expression. -/
def Follows (within : Bool) (l : List (Nat × Value)) : Prop := front l ∈ Place.followers within

theorem follows_of_front {within : Bool} (h : front l = op.terminal) : Follows within l := by
  rw [Follows, h]
  exact List.mem_cons_of_mem _ (List.mem_map_of_mem op.mem_all)

theorem mem_bools (b : Bool) : b ∈ [false, true] := by
  cases b <;> decide

/-- A reduction puts an expression where one is to come. -/
theorem go_of_reduce (harr : Arranged g G) (hp : topState st = p.before G)
    (popped : List Lr.Entry) {n : Nat} {q : Production}
    (hact : policyOf g G (topState (popped ++ st)) (front l) = .reduce (n + 1))
    (hq : g.productions[n]? = some q) (hleft : q.left = 1) (hlen : popped.length = q.right.length) :
    Go g G (policyOf g G) 0 (popped ++ st, l) (⟨p.after G, .node n (treesOf popped)⟩ :: st, l) := by
  refine .reduce (.intro hact hq hlen (Nat.zero_le _) ?_)
  rw [hleft, hp]
  exact (harr.places p p.mem_all).2.2.1

/-- An integer is taken and reduced. -/
theorem go_int (hg : IsGrammar g) (harr : Arranged g G) (hp : topState st = p.before G)
    (hl : Follows p.within l) : ReflTransGen (Go g G (policyOf g G) 0) (st, (int, v) :: l)
      (⟨p.after G, .node 5 [.leaf int v]⟩ :: st, l) := by
  obtain ⟨q, hq, hleft, hright, -⟩ := hg.int_production
  have hshift : policyOf g G (topState st) int = .shift (Place.integer G p.within) := by
    rw [hp]
    exact (harr.places p p.mem_all).1
  have hreduce := (harr.reduced p.within (mem_bools _) (front l) hl).1
  refine .head (.shift hshift) (.single ?_)
  exact go_of_reduce harr hp [⟨_, .leaf int v⟩] hreduce hq hleft (by rw [hright]; rfl)

/-- A group is closed and reduced. -/
theorem go_group (hg : IsGrammar g) (harr : Arranged g G) (hp : topState st = p.before G)
    (hl : Follows p.within l) {x y : Value} : ReflTransGen (Go g G (policyOf g G) 0)
      (⟨(Place.inside p.within).after G, t⟩ ::
        ⟨(Place.inside p.within).before G, .leaf opening x⟩ :: st, (closing, y) :: l)
      (⟨p.after G, .node 4 [.leaf opening x, t, .leaf closing y]⟩ :: st, l) := by
  obtain ⟨q, hq, hleft, hright, -⟩ := hg.group_production
  have hreduce := (harr.reduced p.within (mem_bools _) (front l) hl).2
  refine .head (.shift (harr.closed p.within (mem_bools _))) (.single ?_)
  exact go_of_reduce harr hp [⟨_, .leaf closing y⟩, ⟨_, t⟩, ⟨_, .leaf opening x⟩] hreduce hq hleft
    (by rw [hright]; rfl)

/-- An operator and its operands are reduced, where nothing tighter follows. -/
theorem go_operator (hg : IsGrammar g) (harr : Arranged g G) (hp : topState st = p.before G)
    (hl : Follows p.within l) (hloose : ∀ op' : Operator, front l = op'.terminal →
      op'.level < op.operandLevel) {s : Nat} {x : Value} :
    Go g G (policyOf g G) 0
      (⟨(Place.operand p.within op).after G, u⟩ ::
        ⟨(Place.operand p.within op).before G, .leaf op.terminal x⟩ :: ⟨s, t⟩ :: st, l)
      (⟨p.after G, .node op.production [t, .leaf op.terminal x, u]⟩ :: st, l) := by
  obtain ⟨q, hq, hleft, hright, -⟩ := hg.operator_production op
  obtain ⟨hcloser, hoperator⟩ := harr.joined p.within (mem_bools _) op op.mem_all
  have hreduce : policyOf g G ((Place.operand p.within op).after G) (front l) =
      .reduce (op.production + 1) := by
    rcases List.mem_cons.1 hl with h | h
    · rw [h, hcloser]
    · obtain ⟨op', hop', h⟩ := List.mem_map.1 h
      rw [← h]
      exact hoperator op' hop' (hloose op' h.symm)
  exact go_of_reduce harr hp [⟨_, u⟩, ⟨_, .leaf op.terminal x⟩, ⟨s, t⟩] hreduce hq hleft
    (by rw [hright]; rfl)

end

section
variable {g : Grammar} {G : Graph} {fuel least : Nat} {tokens rest : List Token} {left v : Value}
  {within : Bool}

/-- Where an expression can be extended, something stands that can follow one. -/
theorem follows_of_extend (hg : IsGrammar g) (h : extend fuel least left tokens = some (v, rest))
    (hrest : Follows within (leaves g rest)) : Follows within (leaves g tokens) := by
  obtain ⟨_, -, ⟨-, rfl, -⟩ | ⟨token, after, _, _, op, rfl, hkind, -⟩⟩ := extend_eq_some h
  · exact hrest
  · have hfront : front (leaves g (token :: after)) = op.terminal := by
      rw [leaves_cons, hg.leafOf_operator hkind, front_cons]
    exact follows_of_front hfront

/-- An operator in front of what is left is one of its first token. -/
theorem Settled.lt_of_front (hg : IsGrammar g) (h : Settled least tokens) {op : Operator}
    (hfront : front (leaves g tokens) = op.terminal) : op.level < least := by
  cases tokens with
  | nil => cases op <;> cases hfront
  | cons token rest =>
    rw [leaves_cons, front] at hfront
    exact h token rest rfl op (hg.kind_of_leafOf hfront (by cases op <;> rfl))

/-- **The machine climbs.** Where the reference takes an expression off some tokens, and extends
one, the machine comes to an expression of the same value. The induction is on the fuel; what the
reference leaves says that the machine reduces. -/
theorem go_of_climb (hg : IsGrammar g) (harr : Arranged g G) (fuel : Nat) :
    (∀ (p : Place) st tokens v rest, topState st = p.before G →
      climb fuel p.least tokens = some (v, rest) → Follows p.within (leaves g rest) →
      ∃ t : Tree, t.evaluate g = .ok v ∧ ReflTransGen (Go g G (policyOf g G) 0)
        (st, leaves g tokens) (⟨p.after G, t⟩ :: st, leaves g rest)) ∧
    ∀ (p : Place) st t tokens left v rest, topState st = p.before G → t.evaluate g = .ok left →
      extend fuel p.least left tokens = some (v, rest) → Follows p.within (leaves g rest) →
      ∃ u : Tree, u.evaluate g = .ok v ∧ ReflTransGen (Go g G (policyOf g G) 0)
        (⟨p.after G, t⟩ :: st, leaves g tokens) (⟨p.after G, u⟩ :: st, leaves g rest) := by
  induction fuel with
  | zero =>
    constructor
    · intro _ _ _ _ _ _ h
      cases h
    · intro _ _ _ _ _ _ _ _ _ h
      cases h
  | succ fuel ih =>
    obtain ⟨ihclimb, ihextend⟩ := ih
    constructor
    · intro p st tokens v rest hp h hrest
      obtain ⟨_, heq, ⟨token, after, rfl, hint, hext⟩ |
        ⟨token, within, inner, close, after, rfl, hopen, hinner, hclose, hext⟩⟩ := climb_eq_some h
      · cases heq
        rw [leaves_cons, hg.leafOf_int hint]
        obtain ⟨u, hu, hgo⟩ :=
          ihextend p st _ after token.value v rest hp hg.evaluate_int hext hrest
        exact ⟨u, hu, (go_int hg harr hp (follows_of_extend hg hext hrest)).trans hgo⟩
      · cases heq
        rw [leaves_cons, hg.leafOf_opening hopen]
        have hshift : policyOf g G (topState st) opening =
            .shift ((Place.inside p.within).before G) := by
          rw [hp]
          exact (harr.places p p.mem_all).2.1
        have hcloser : Follows true (leaves g (close :: after)) := by
          rw [leaves_cons, hg.leafOf_closing hclose]
          exact List.mem_cons_self ..
        obtain ⟨t, ht, hgo⟩ := ihclimb (.inside p.within)
          (⟨(Place.inside p.within).before G, .leaf opening token.value⟩ :: st) within inner
          (close :: after) rfl hinner hcloser
        rw [leaves_cons, hg.leafOf_closing hclose] at hgo
        obtain ⟨u, hu, hgo'⟩ := ihextend p st _ after inner v rest hp
          (hg.evaluate_group ht) hext hrest
        refine ⟨u, hu, .head (.shift hshift) (hgo.trans (.trans ?_ hgo'))⟩
        exact go_group hg harr hp (follows_of_extend hg hext hrest)
    · intro p st t tokens left v rest hp ht h hrest
      obtain ⟨_, heq, ⟨rfl, rfl, -⟩ | ⟨token, after, right, after', op, rfl, hkind, hlevel, hright,
        hext⟩⟩ := extend_eq_some h
      · exact ⟨t, ht, .refl⟩
      · cases heq
        rw [leaves_cons, hg.leafOf_operator hkind]
        have hshift := (harr.places p p.mem_all).2.2.2 op op.mem_all hlevel
        have hfollows : Follows p.within (leaves g after') := follows_of_extend hg hext hrest
        obtain ⟨w, hw, hgo⟩ := ihclimb (.operand p.within op)
          (⟨(Place.operand p.within op).before G, .leaf op.terminal token.value⟩ ::
            ⟨p.after G, t⟩ :: st) after right after' rfl hright hfollows
        obtain ⟨u, hu, hgo'⟩ := ihextend p st _ after' _ v rest hp
          (hg.evaluate_operator ht hw (x := token.value)) hext hrest
        refine ⟨u, hu, .head (.shift hshift) (hgo.trans (.head ?_ hgo'))⟩
        exact go_operator hg harr hp hfollows fun op' h =>
          (settled_of_climb hright).lt_of_front hg h

/-- **Where the reference has a value the machine accepts a tree of it.** -/
theorem accepts_of_value (hg : IsGrammar g) (harr : Arranged g G) (h : value? tokens = some v) :
    ∃ t : Tree, t.evaluate g = .ok v ∧ Accepts g G (policyOf g G) [] (leaves g tokens) t := by
  unfold value? at h
  split at h
  · rename_i hclimb
    cases h
    obtain ⟨t, ht, hgo⟩ := (go_of_climb hg harr _).1 .whole [] tokens v [] rfl hclimb
      (List.mem_cons_self ..)
    exact ⟨t, ht, _, hgo, harr.accepted⟩
  · cases h

theorem exists_of_map_eq_three {α β : Type} {f : α → β} {l : List α} {a b c : β}
    (h : l.map f = [a, b, c]) : ∃ x y z, l = [x, y, z] ∧ f x = a ∧ f y = b ∧ f z = c := by
  obtain ⟨x, rest, rfl, hx, hrest⟩ := List.map_eq_cons_iff.1 h
  obtain ⟨y, rest, rfl, hy, hrest⟩ := List.map_eq_cons_iff.1 hrest
  obtain ⟨z, rest, rfl, hz, hrest⟩ := List.map_eq_cons_iff.1 hrest
  obtain rfl := List.map_eq_nil_iff.1 hrest
  exact ⟨x, y, z, rfl, hx, hy, hz⟩

/-- The leaves of a valid tree are those of an expression. -/
theorem isExpression_of_valid (hg : IsGrammar g) {t : Tree} (ht : t.Valid g)
    (hsymbol : t.symbol g = expression) (hleaves : leaves g tokens = t.leaves) :
    IsExpression tokens := by
  induction ht generalizing tokens with
  | leaf _ => cases hsymbol
  | @node n q children hq hsyms _ ih =>
    rw [Tree.leaves] at hleaves
    rcases hg.production_cases hq with ⟨op, hright, -⟩ | ⟨hright, -⟩ | ⟨hright, -⟩
    · obtain ⟨x, y, z, rfl, hx, hy, hz⟩ := exists_of_map_eq_three (hsyms.trans hright)
      obtain ⟨w, rfl⟩ := Tree.exists_leaf_of_symbol hy
      simp only [Tree.leavesOf, Tree.leaves, List.append_nil, List.singleton_append] at hleaves
      obtain ⟨before, rest, rfl, hbefore, hrest⟩ := List.map_eq_append_iff.1 hleaves
      obtain ⟨token, after, rfl, htoken, hafter⟩ := List.map_eq_cons_iff.1 hrest
      have hkind : token.kind = op.kind :=
        hg.kind_of_leafOf (congrArg Prod.fst htoken) (by cases op <;> rfl)
      exact .join (ih x (by simp) hx hbefore) hkind (ih z (by simp) hz hafter)
    · obtain ⟨x, y, z, rfl, hx, hy, hz⟩ := exists_of_map_eq_three (hsyms.trans hright)
      obtain ⟨_, rfl⟩ := Tree.exists_leaf_of_symbol hx
      obtain ⟨_, rfl⟩ := Tree.exists_leaf_of_symbol hz
      simp only [Tree.leavesOf, Tree.leaves, List.append_nil, List.singleton_append] at hleaves
      obtain ⟨token, rest, rfl, htoken, hrest⟩ := List.map_eq_cons_iff.1 hleaves
      obtain ⟨within, rest, rfl, hwithin, hrest⟩ := List.map_eq_append_iff.1 hrest
      obtain ⟨close, rest, rfl, hclose, hrest⟩ := List.map_eq_cons_iff.1 hrest
      obtain rfl := List.map_eq_nil_iff.1 hrest
      exact .group (hg.kind_of_leafOf (congrArg Prod.fst htoken) rfl) (ih y (by simp) hy hwithin)
        (hg.kind_of_leafOf (congrArg Prod.fst hclose) rfl)
    · obtain ⟨x, rest, rfl, hx, hrest⟩ := List.map_eq_cons_iff.1 (hsyms.trans hright)
      obtain rfl := List.map_eq_nil_iff.1 hrest
      obtain ⟨_, rfl⟩ := Tree.exists_leaf_of_symbol hx
      simp only [Tree.leavesOf, Tree.leaves, List.append_nil] at hleaves
      obtain ⟨token, rest, rfl, htoken, hrest⟩ := List.map_eq_cons_iff.1 hleaves
      obtain rfl := List.map_eq_nil_iff.1 hrest
      exact .int (hg.kind_of_leafOf (congrArg Prod.fst htoken) rfl)

end

/-! ### The parser -/

/-- The kinds of tokens of arithmetic. -/
def kinds : List String := ["INT"] ++ Operator.all.map Operator.kind ++ ["LPAREN", "RPAREN"]

section
variable {g : Grammar} {tokens : List Token}

/-- Tokens of these kinds are known to the grammar, and do not end the input. -/
theorem IsGrammar.knows_and_input (hg : IsGrammar g) (h : ∀ token ∈ tokens, token.kind ∈ kinds) :
    g.Knows tokens ∧ g.input tokens = leaves g tokens := by
  have hall : tokens.takeWhile (fun token => !token.isEnd) = tokens := by
    rw [List.takeWhile_eq_self_iff]
    intro token htoken
    have hmem := h token htoken
    rw [Token.isEnd, Bool.not_eq_true', beq_eq_false_iff_ne]
    rintro heq
    rw [heq] at hmem
    exact absurd hmem (by decide)
  refine ⟨fun token htoken => ?_, by rw [Grammar.input, hall]; rfl⟩
  rw [hall] at htoken
  rw [hg.names]
  have hmem := h token htoken
  exact List.mem_cons_of_mem _ hmem

/-- The description of arithmetic has a grammar, and its tables have no conflicts. -/
theorem exists_grammar : ∃ g, Builtin.arithmetic.resolveGrammar = .ok g ∧
    ∀ method, (ParseTable.ofGraph (ofGrammar g) (Graph.build (ofGrammar g) method)).2 = [] := by
  have hrun : ∃ g ∈ Builtin.arithmetic.resolveGrammar.toOption, ∀ method ∈ [.canonical, .merged],
      (ParseTable.ofGraph (ofGrammar g) (Graph.build (ofGrammar g) method)).2 = [] := by
    decide +kernel
  obtain ⟨g, hg, hnil⟩ := hrun
  refine ⟨g, toOption_eq_some_iff.1 hg, fun method => hnil method ?_⟩
  cases method <;> decide

section
variable {G : Graph} (hG : IsAutomaton g G) (hwf : g.WellFormed) (hg : IsGrammar g)
  (harr : Arranged g G) {tree : Tree} {v : Value}

/-- The tree that is accepted of some tokens has them as its leaves. -/
theorem valid_of_accepts (hG : IsAutomaton g G) (hwf : g.WellFormed)
    (h : Accepts g G (policyOf g G) [] (leaves g tokens) tree) :
    tree.Valid g ∧ tree.symbol g = .nonterminal g.start ∧ tree.leaves = leaves g tokens := by
  obtain ⟨hvalid, hsymbol, hleaves⟩ := Stacked.nil.of_accepts hG hwf (licensed_ofGraph hG hwf) h
  exact ⟨hvalid, hsymbol, by simpa [Tree.leavesOf] using hleaves⟩

theorem exists_value_of_tree (hg : IsGrammar g) (hvalid : tree.Valid g)
    (hsymbol : tree.symbol g = .nonterminal g.start) (hleaves : tree.leaves = leaves g tokens) :
    ∃ v, value? tokens = some v := by
  rw [hg.start] at hsymbol
  exact exists_value_of_isExpression (isExpression_of_valid hg hvalid hsymbol hleaves.symm)

include hG hwf hg harr

/-- The value of an accepted tree is that of the reference, which has an accepted tree of its
own. -/
theorem value_of_accepts (h : Accepts g G (policyOf g G) [] (leaves g tokens) tree)
    (hv : tree.evaluate g = .ok v) : value? tokens = some v := by
  obtain ⟨hvalid, hsymbol, hleaves⟩ := valid_of_accepts hG hwf h
  obtain ⟨w, hw⟩ := exists_value_of_tree hg hvalid hsymbol hleaves
  obtain ⟨other, hother, h'⟩ := accepts_of_value hg harr hw
  obtain rfl := h.unique h' hG
  obtain rfl : v = w := Except.ok.inj (hv.symm.trans hother)
  exact hw

/-- **The reference has a value for the sentences of the ambiguous grammar.** -/
theorem exists_value_iff_sentence (hknown : ∀ e ∈ leaves g tokens, e.1 < g.terminals.size) :
    (∃ v, value? tokens = some v) ↔ g.Sentence (tokens.map fun token => (g.leafOf token).1) := by
  have hterminals : (leaves g tokens).map (·.1) = tokens.map fun token => (g.leafOf token).1 := by
    rw [leaves, List.map_map]
    rfl
  constructor
  · rintro ⟨v, hv⟩
    obtain ⟨tree, -, h⟩ := accepts_of_value hg harr hv
    obtain ⟨hvalid, hsymbol, hleaves⟩ := valid_of_accepts hG hwf h
    rw [← hterminals, ← hleaves]
    exact hvalid.sentence hsymbol
  · intro hsentence
    rw [← hterminals, Grammar.Sentence, List.map_map] at hsentence
    obtain ⟨ts, hts⟩ := exists_forest_of_derives hsentence hknown
    obtain ⟨tree, rfl, hsymbol, hvalid, hleaves⟩ := hts.exists_tree
    exact exists_value_of_tree hg hvalid hsymbol hleaves

end

/-- **The parser for arithmetic loses no sentence, and climbs.** By either construction, on all
tokens of its kinds it ends; with a value just when the tokens are a sentence of the ambiguous
grammar, and then with the one that precedence climbing gives. -/
theorem exists_result_of_arithmetic (options : Options)
    (hkinds : ∀ token ∈ tokens, token.kind ∈ kinds) : ∃ g table r,
    Builtin.arithmetic.resolveGrammar = .ok g ∧
      Generate.Yields (Builtin.arithmetic.parseTable options) (.ok table) ∧
      (∃ steps, ∀ limit ≥ steps, (parse table .list limit tokens).result = some r) ∧
      ((∃ v, r = .ok v) ↔ g.Sentence (tokens.map fun token => (g.leafOf token).1)) ∧
      (∀ v, r = .ok v ↔ value? tokens = some v) ∧
      ((∀ v, r ≠ .ok v) → ∃ rejection, r = .error (.rejected rejection)) := by
  obtain ⟨g, hresolve, hnil⟩ := exists_grammar
  have hwf := GrammarDecl.wellFormed_of_resolve hresolve
  have hg := isGrammar_of_resolve hresolve
  have harr := arranged_build hresolve options.method
  have hG := Graph.isAutomaton_build hwf options.method
  have hlic := licensed_ofGraph hG hwf
  have htable : Builtin.arithmetic.parserOutcome options =
      .ok (tableOf g (Graph.build (ofGrammar g) options.method)) :=
    (Builtin.arithmetic.parserOutcome_eq_ok_iff options).2
      ⟨g, hresolve, Prod.ext rfl (hnil options.method)⟩
  obtain ⟨hknows, hinput⟩ := hg.knows_and_input hkinds
  obtain ⟨token, rest, hpull, hinput', hknows'⟩ := exists_pull .origin hknows
  have hmirrors : Mirrors g ⟨[⟨0, .none, .origin⟩], token, rest⟩ ([], leaves g tokens) :=
    ⟨.bottom, hinput'.trans hinput, hknows'⟩
  obtain ⟨hcyclic, hhidden⟩ := hg.not_cyclic_and_not_hiddenLeft hwf
  obtain ⟨r, ⟨steps, hsteps⟩, hr⟩ := exists_outcome_of_halts hG hwf hg.total
    (fun hst => halts_of_not_cyclic hG hwf hlic hcyclic hhidden hst) hmirrors
  have hiff : ∀ v, r = .ok v ↔ value? tokens = some v := by
    rcases hr with ⟨tree, w, hacc, hw, rfl⟩ | ⟨hnot, rejection, rfl⟩
    · simp [value_of_accepts hG hwf hg harr hacc hw]
    · refine fun v => iff_of_false (by simp) fun hv => ?_
      obtain ⟨tree, -, hacc⟩ := accepts_of_value hg harr hv
      exact hnot tree hacc
  have hsentence := exists_value_iff_sentence hG hwf hg harr fun e he =>
    (hknows.of_mem_input hwf (hinput ▸ he)).1
  refine ⟨g, _, r, hresolve, htable ▸ Builtin.arithmetic.yields_parseTable options,
    ⟨steps, fun limit hlimit => ?_⟩, (exists_congr hiff).trans hsentence, hiff, fun hne => ?_⟩
  · rw [parse, hpull]
    exact hsteps limit hlimit []
  · rcases hr with ⟨_, w, -, -, rfl⟩ | ⟨-, hrejected⟩
    · exact absurd rfl (hne w)
    · exact hrejected

/-- The tokens of `1 - 2 - (3 + 4) * 5 ^ 6 ^ 7`. -/
def mixed : List Token :=
  [⟨"INT", .int 1, "1", .origin⟩, ⟨"MINUS", .str "-", "-", .origin⟩, ⟨"INT", .int 2, "2", .origin⟩,
    ⟨"MINUS", .str "-", "-", .origin⟩, ⟨"LPAREN", .str "(", "(", .origin⟩,
    ⟨"INT", .int 3, "3", .origin⟩, ⟨"PLUS", .str "+", "+", .origin⟩, ⟨"INT", .int 4, "4", .origin⟩,
    ⟨"RPAREN", .str ")", ")", .origin⟩, ⟨"TIMES", .str "*", "*", .origin⟩,
    ⟨"INT", .int 5, "5", .origin⟩, ⟨"POW", .str "^", "^", .origin⟩, ⟨"INT", .int 6, "6", .origin⟩,
    ⟨"POW", .str "^", "^", .origin⟩, ⟨"INT", .int 7, "7", .origin⟩]

/-- Its value is that of `(1 - 2) - ((3 + 4) * (5 ^ (6 ^ 7)))`, by either construction. -/
theorem exists_result_of_mixed : (∀ token ∈ mixed, token.kind ∈ kinds) ∧
    value? mixed = some (tuple .minus (tuple .minus (.int 1) (.int 2))
      (tuple .times (tuple .plus (.int 3) (.int 4))
        (tuple .pow (.int 5) (tuple .pow (.int 6) (.int 7))))) ∧
    ∀ method, ∃ g table r, Builtin.arithmetic.resolveGrammar = .ok g ∧
      Generate.Yields (Builtin.arithmetic.parseTable { method }) (.ok table) ∧
      (∃ steps, ∀ limit ≥ steps, (parse table .list limit mixed).result = some r) ∧
      ((∃ v, r = .ok v) ↔ g.Sentence (mixed.map fun token => (g.leafOf token).1)) ∧
      (∀ v, r = .ok v ↔ value? mixed = some v) ∧
      ((∀ v, r ≠ .ok v) → ∃ rejection, r = .error (.rejected rejection)) := by
  have hkinds : ∀ token ∈ mixed, token.kind ∈ kinds := by decide
  exact ⟨hkinds, rfl, fun method => exists_result_of_arithmetic { method } hkinds⟩

end

end LexParse.Arithmetic
