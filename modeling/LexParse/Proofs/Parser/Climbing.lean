import LexParse.Token
import Mathlib.Data.List.Basic

/-!
# Precedence climbing

The usual parser for arithmetic, written without a table: an operand, then operators that bind no
looser than a given level, each with a right operand made of tighter ones. It is what the parser
generated for `Builtin.arithmetic` is to be compared with.

The parser is given *fuel*, which each call spends one unit of. A call that hands on takes a token,
so as much fuel as there are tokens and one more is enough.

## What is proved

* `climb_eq_some`, `extend_eq_some`: what a success is made of.
* `settled_of_climb`: what the parser leaves does not begin with an operator it could have taken.
* `leaves_of_isExpression`: it takes an expression up to where a looser operator begins.
* `exists_value_of_isExpression`: so it finds a value for every expression.
-/

namespace LexParse.Arithmetic

/-- An operator. -/
inductive Operator where
  /-- Addition. -/
  | plus
  /-- Subtraction. -/
  | minus
  /-- Multiplication. -/
  | times
  /-- Exponentiation. -/
  | pow
deriving DecidableEq

namespace Operator

/-- The kind of its tokens. -/
def kind : Operator → String
  | .plus => "PLUS"
  | .minus => "MINUS"
  | .times => "TIMES"
  | .pow => "POW"

/-- Its sign, which heads the tuples it makes. -/
def sign : Operator → String
  | .plus => "+"
  | .minus => "-"
  | .times => "*"
  | .pow => "^"

/-- How tight it binds. -/
def level : Operator → Nat
  | .plus | .minus => 1
  | .times => 2
  | .pow => 3

/-- How tight the operators in its right operand bind at least: tighter than it does, or as tight
if it groups to the right. -/
def operandLevel : Operator → Nat
  | .plus | .minus => 2
  | .times => 3
  | .pow => 3

/-- All of them. -/
def all : List Operator := [.plus, .minus, .times, .pow]

theorem mem_all (op : Operator) : op ∈ all := by
  cases op <;> decide

/-- The operator of a kind. -/
def ofKind? (kind : String) : Option Operator := all.find? fun op => op.kind == kind

theorem ofKind?_eq_some_iff {kind : String} {op : Operator} :
    ofKind? kind = some op ↔ kind = op.kind := by
  constructor
  · intro h
    unfold ofKind? at h
    have hkind := List.find?_some h
    exact (beq_iff_eq.1 hkind).symm
  · rintro rfl
    cases op <;> decide

theorem level_pos (op : Operator) : 0 < op.level := by
  cases op <;> decide

end Operator

/-- The tuple that an operator makes of its operands. -/
def tuple (op : Operator) (left right : Value) : Value := .tuple [.str op.sign, left, right]

mutual

/-- Take an expression off some tokens, of operators that bind as tight as a level at least. -/
def climb : Nat → Nat → List Token → Option (Value × List Token)
  | fuel + 1, least, token :: rest =>
    if token.kind = "INT" then extend fuel least token.value rest
    else if token.kind = "LPAREN" then
      match climb fuel 1 rest with
      | some (inner, close :: rest) =>
        if close.kind = "RPAREN" then extend fuel least inner rest else none
      | _ => none
    else none
  | _, _, _ => none

/-- Extend an expression by the operators that bind as tight as a level at least. -/
def extend : Nat → Nat → Value → List Token → Option (Value × List Token)
  | fuel + 1, least, left, token :: rest =>
    match Operator.ofKind? token.kind with
    | some op =>
      if least ≤ op.level then
        match climb fuel op.operandLevel rest with
        | some (right, rest) => extend fuel least (tuple op left right) rest
        | none => none
      else some (left, token :: rest)
    | none => some (left, token :: rest)
  | _ + 1, _, left, [] => some (left, [])
  | 0, _, _, _ => none

end

/-- The value of some tokens, if all of them are an expression. -/
def value? (tokens : List Token) : Option Value :=
  match climb (tokens.length + 1) 1 tokens with
  | some (v, []) => some v
  | _ => none

variable {fuel least : Nat} {tokens rest : List Token} {left v : Value}

/-! ### What a success is made of -/

/-- No operator that binds as tight as the level stands in front. -/
def Settled (least : Nat) (tokens : List Token) : Prop :=
  ∀ token rest, tokens = token :: rest → ∀ op : Operator, token.kind = op.kind → op.level < least

/-- An expression begins with an integer, or with one in parentheses. -/
theorem climb_eq_some (h : climb fuel least tokens = some (v, rest)) : ∃ fuel',
    fuel = fuel' + 1 ∧ ((∃ token after, tokens = token :: after ∧ token.kind = "INT" ∧
      extend fuel' least token.value after = some (v, rest)) ∨
    ∃ token within inner close after, tokens = token :: within ∧ token.kind = "LPAREN" ∧
      climb fuel' 1 within = some (inner, close :: after) ∧ close.kind = "RPAREN" ∧
      extend fuel' least inner after = some (v, rest)) := by
  cases fuel with
  | zero => cases h
  | succ fuel =>
    cases tokens with
    | nil => cases h
    | cons token after =>
      refine ⟨fuel, rfl, ?_⟩
      rw [climb] at h
      split at h
      · rename_i hint
        exact .inl ⟨token, after, rfl, hint, h⟩
      · split at h
        · rename_i hopen
          split at h
          · rename_i inner close after' hinner
            split at h
            · rename_i hclose
              exact .inr ⟨token, after, inner, close, after', rfl, hopen, hinner, hclose, h⟩
            · cases h
          · cases h
        · cases h

/-- An expression ends before an operator that binds looser, or goes on with one. -/
theorem extend_eq_some (h : extend fuel least left tokens = some (v, rest)) : ∃ fuel',
    fuel = fuel' + 1 ∧ (v = left ∧ rest = tokens ∧ Settled least tokens ∨
    ∃ token after right after', ∃ op : Operator, tokens = token :: after ∧ token.kind = op.kind ∧
      least ≤ op.level ∧ climb fuel' op.operandLevel after = some (right, after') ∧
      extend fuel' least (tuple op left right) after' = some (v, rest)) := by
  cases fuel with
  | zero => cases h
  | succ fuel =>
    refine ⟨fuel, rfl, ?_⟩
    cases tokens with
    | nil =>
      rw [extend] at h
      cases h
      exact .inl ⟨rfl, rfl, nofun⟩
    | cons token after =>
      rw [extend] at h
      split at h
      · rename_i op hop
        have hkind := Operator.ofKind?_eq_some_iff.1 hop
        split at h
        · rename_i hlevel
          split at h
          · rename_i right after' hright
            exact .inr ⟨token, after, right, after', op, rfl, hkind, hlevel, hright, h⟩
          · cases h
        · rename_i hlevel
          cases h
          refine .inl ⟨rfl, rfl, ?_⟩
          rintro _ _ ⟨⟩ op' hkind'
          rw [hkind', Operator.ofKind?_eq_some_iff.2 rfl] at hop
          cases hop
          exact Nat.not_le.1 hlevel
      · rename_i hnone
        cases h
        refine .inl ⟨rfl, rfl, ?_⟩
        rintro _ _ ⟨⟩ op' hkind'
        rw [Operator.ofKind?_eq_some_iff.2 hkind'] at hnone
        cases hnone

/-- What is left does not begin with an operator that could have been taken. -/
theorem settled_of_extend (h : extend fuel least left tokens = some (v, rest)) :
    Settled least rest := by
  induction fuel generalizing left tokens with
  | zero => cases h
  | succ fuel ih =>
    obtain ⟨fuel', heq, ⟨-, rfl, hsettled⟩ | ⟨_, _, _, _, _, -, -, -, -, hrest⟩⟩ :=
      extend_eq_some h
    · exact hsettled
    · cases heq
      exact ih hrest

theorem settled_of_climb (h : climb fuel least tokens = some (v, rest)) : Settled least rest := by
  obtain ⟨_, -, ⟨_, _, -, -, hrest⟩ | ⟨_, _, _, _, _, -, -, -, -, hrest⟩⟩ := climb_eq_some h
  · exact settled_of_extend hrest
  · exact settled_of_extend hrest

/-! ### Every expression is taken -/

/-- The expressions of the grammar, as strings of tokens. -/
inductive IsExpression : List Token → Prop where
  /-- An integer. -/
  | int {token : Token} : token.kind = "INT" → IsExpression [token]
  /-- An expression in parentheses. -/
  | group {opening close : Token} {within : List Token} : opening.kind = "LPAREN" →
      IsExpression within → close.kind = "RPAREN" →
      IsExpression (opening :: within ++ [close])
  /-- Two expressions joined by an operator. -/
  | join {token : Token} {op : Operator} {before after : List Token} : IsExpression before →
      token.kind = op.kind → IsExpression after → IsExpression (before ++ token :: after)

/-- What can follow an operand in an expression: nothing, or an operator and an expression. -/
inductive Continues : List Token → Prop where
  /-- Nothing. -/
  | nil : Continues []
  /-- An operator, and what it joins. -/
  | cons {token : Token} {op : Operator} {after : List Token} : token.kind = op.kind →
      IsExpression after → Continues (token :: after)

theorem Continues.join {token : Token} {op : Operator} {after : List Token}
    (h : Continues tokens) (hkind : token.kind = op.kind) (hafter : IsExpression after) :
    Continues (tokens ++ token :: after) := by
  cases h with
  | nil => exact .cons hkind hafter
  | cons hkind' hbefore => exact .cons hkind' (.join hbefore hkind hafter)

/-- **An expression has an operand in front**, however its operators are grouped. -/
theorem IsExpression.exists_operand (h : IsExpression tokens) :
    (∃ token after, tokens = token :: after ∧ token.kind = "INT" ∧ Continues after) ∨
      ∃ opening within close after, tokens = opening :: (within ++ close :: after) ∧
        opening.kind = "LPAREN" ∧ IsExpression within ∧ close.kind = "RPAREN" ∧
        Continues after := by
  induction h with
  | @int token hkind => exact .inl ⟨token, [], rfl, hkind, .nil⟩
  | @group opening close within hopening hwithin hclose _ =>
    exact .inr ⟨opening, within, close, [], rfl, hopening, hwithin, hclose, .nil⟩
  | join _ hkind hafter ih _ =>
    rcases ih with ⟨token, after, rfl, hint, hcont⟩ |
      ⟨opening, within, close, after, rfl, hopening, hwithin, hclose, hcont⟩
    · exact .inl ⟨token, _, rfl, hint, hcont.join hkind hafter⟩
    · exact .inr ⟨opening, within, close, _, by simp, hopening, hwithin, hclose,
        hcont.join hkind hafter⟩

/-- The tokens do not begin with an operator. -/
def Stops (rest : List Token) : Prop := ∀ token rest', rest = token :: rest' →
  Operator.ofKind? token.kind = none

/-- What a parser leaves of an expression: a continuation by looser operators. -/
def Leaves (least length : Nat) (rest : List Token) (result : Option (Value × List Token)) : Prop :=
  ∃ v after, result = some (v, after ++ rest) ∧ Continues after ∧ after.length ≤ length ∧
    Settled least after

theorem Leaves.mono {length length' : Nat} {result : Option (Value × List Token)}
    (h : Leaves least length rest result) (hle : length ≤ length') :
    Leaves least length' rest result := by
  obtain ⟨v, after, hresult, hcont, hlen, hsettled⟩ := h
  exact ⟨v, after, hresult, hcont, Nat.le_trans hlen hle, hsettled⟩

/-- Every operator binds as tight as the lowest level. -/
theorem Continues.eq_nil_of_settled (h : Continues tokens) (hsettled : Settled 1 tokens) :
    tokens = [] := by
  cases h with
  | nil => rfl
  | @cons token op after hkind _ =>
    have hlt := hsettled token after rfl op hkind
    have := op.level_pos
    omega

/-- A continuation stays where it is if its operator is too loose. -/
theorem settled_cons {token : Token} {op : Operator} {after : List Token}
    (hkind : token.kind = op.kind) (h : op.level < least) : Settled least (token :: after) := by
  rintro _ _ ⟨⟩ op' hkind'
  have hop := Operator.ofKind?_eq_some_iff.2 hkind
  rw [Operator.ofKind?_eq_some_iff.2 hkind'] at hop
  cases hop
  exact h

/-- **An expression is taken up to where a looser operator begins**, and so is a continuation. The
induction is on the fuel, and each call that hands on has taken a token. -/
theorem leaves_of_isExpression (fuel : Nat) :
    (∀ least tokens rest, IsExpression tokens → Stops rest → tokens.length < fuel →
      Leaves least tokens.length rest (climb fuel least (tokens ++ rest))) ∧
    ∀ least left after rest, Continues after → Stops rest → after.length < fuel →
      Leaves least after.length rest (extend fuel least left (after ++ rest)) := by
  induction fuel with
  | zero => exact ⟨fun _ _ _ _ _ h => absurd h (Nat.not_lt_zero _),
      fun _ _ _ _ _ _ h => absurd h (Nat.not_lt_zero _)⟩
  | succ fuel ih =>
    obtain ⟨ihclimb, ihextend⟩ := ih
    constructor
    · intro least tokens rest htokens hrest hlen
      rcases htokens.exists_operand with ⟨token, after, rfl, hint, hcont⟩ |
        ⟨opening, within, close, after, rfl, hopening, hwithin, hclose, hcont⟩
      · rw [List.length_cons] at hlen
        rw [List.cons_append, climb, if_pos hint]
        exact (ihextend least token.value after rest hcont hrest (by omega)).mono (by simp)
      · simp only [List.length_cons, List.length_append] at hlen
        have hstops : Stops (close :: (after ++ rest)) := by
          rintro _ _ ⟨⟩
          rw [hclose]
          decide
        -- within parentheses no operator is too loose
        obtain ⟨inner, after', hinner, hcont', -, hsettled⟩ :=
          ihclimb 1 within (close :: (after ++ rest)) hwithin hstops (by omega)
        obtain rfl := hcont'.eq_nil_of_settled hsettled
        have hopen : ¬ opening.kind = "INT" := by
          rw [hopening]
          decide
        rw [List.cons_append, List.append_assoc, List.cons_append, climb, if_neg hopen,
          if_pos hopening, hinner]
        simp only [List.nil_append, if_pos hclose]
        refine (ihextend least inner after rest hcont hrest (by omega)).mono ?_
        simp only [List.length_cons, List.length_append]
        omega
    · intro least left after rest hcont hrest hlen
      cases hcont with
      | nil =>
        refine ⟨left, [], ?_, .nil, Nat.le_refl _, nofun⟩
        cases rest with
        | nil => rw [List.nil_append, extend]
        | cons token rest =>
          rw [List.nil_append, extend, hrest token rest rfl]
      | @cons token op after hkind hafter =>
        rw [List.length_cons] at hlen
        rw [List.cons_append, extend, Operator.ofKind?_eq_some_iff.2 hkind]
        by_cases hlevel : least ≤ op.level
        · obtain ⟨right, after', hright, hcont', hlen', -⟩ :=
            ihclimb op.operandLevel after rest hafter hrest (by omega)
          simp only [if_pos hlevel, hright]
          refine (ihextend least _ after' rest hcont' hrest (by omega)).mono ?_
          rw [List.length_cons]
          omega
        · simp only [if_neg hlevel]
          exact ⟨left, token :: after, rfl, .cons hkind hafter, Nat.le_refl _,
            settled_cons hkind (Nat.not_le.1 hlevel)⟩

/-- **Every expression has a value.** -/
theorem exists_value_of_isExpression (h : IsExpression tokens) : ∃ v, value? tokens = some v := by
  obtain ⟨v, after, hclimb, hcont, -, hsettled⟩ :=
    (leaves_of_isExpression (tokens.length + 1)).1 1 tokens [] h nofun (Nat.lt_succ_self _)
  obtain rfl := hcont.eq_nil_of_settled hsettled
  rw [List.append_nil] at hclimb
  exact ⟨v, by rw [value?, hclimb]; rfl⟩

end LexParse.Arithmetic
