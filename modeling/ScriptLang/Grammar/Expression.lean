/-
  ScriptLang.Grammar.Expression — reading expressions.

  An expression is an atom and then any number of binary operators, each with an atom. An
  atom is a parenthesised expression, a unary operator before an atom, a literal, or a name
  on its own, with arguments, or with an index. `climb` folds operators of at least a given
  rank into a left operand; before an operator is built, `absorb` gives its right operand
  every operator that binds tighter, or as tight if it groups to the right.

  `expression?` and `atom?` give nothing, and take nothing, where no atom starts. The first
  argument of a recursive reader bounds its depth.
-/

import ScriptLang.Stream.Lookahead
import ScriptLang.Tree.Basic

namespace ScriptLang.Grammar

open Lookahead

variable {σ : Type} [TokenStream σ]

/-! ## Names and literals -/

/-- A name, if one is next. The token is taken before its text is judged. -/
def name? : Reading σ (Option String) := do
  if (← peekKind 0) = .name then
    let t ← take
    if isProperName t.text then return some t.text
    else throw (.unexpected .properName t)
  else return none

def name (wanted : Expectation) : Reading σ String := do require wanted (← name?)

/-- The literal that a token stands for, if it is of such a kind. -/
def literalOf (t : Token) : Except Fault (Option Literal) :=
  match t.kind with
  | .emptyWord => .ok (some .empty)
  | .trueWord => .ok (some (.boolean true))
  | .falseWord => .ok (some (.boolean false))
  | .string => .ok (some (.string t.text))
  | .number =>
    match Literal.ofNumber? t.text with
    | some value => .ok (some value)
    | none => .error (.malformed t .number)
  | .date =>
    match Literal.ofDate? t.text with
    | some value => .ok (some value)
    | none => .error (.malformed t .date)
  | _ => .ok none

/-- A literal, if one is next. Its text is judged before the token is taken. -/
def literal? : Reading σ (Option Literal) := do
  match literalOf (← peek 0) with
  | .error fault => throw fault
  | .ok none => return none
  | .ok (some value) =>
    let _ ← take
    return some value

/-- A binary expression; some kinds rank as operators and build none. -/
def combine (operator : Token) (left right : Expr) : Reading σ Expr :=
  match BinaryOp.ofKind? operator.kind with
  | some op => pure (.binary op left right)
  | none => throw (.unsupportedOperator operator)

/-! ## Expressions -/

mutual

/-- An expression, if an atom is next. -/
def expression? : Nat → Reading σ (Option Expr)
  | 0 => throw .tooDeep
  | n + 1 => do
    match ← atom? n with
    | some left => return some (← climb n left 0)
    | none => return none

/-- Folds operators of rank `least` or more into `left`. -/
def climb : Nat → Expr → Nat → Reading σ Expr
  | 0, _, _ => throw .tooDeep
  | n + 1, left, least => do
    match (← peekKind 0).precedence? with
    | none => return left
    | some rank =>
      if rank < least then return left
      else
        let operator ← take
        let first ← require (.rightOperand operator.text) (← atom? n)
        let right ← absorb n first rank
        let whole ← combine operator left right
        climb n whole least

/-- Gives the right operand of an operator of the given rank what belongs to it. -/
def absorb : Nat → Expr → Nat → Reading σ Expr
  | 0, _, _ => throw .tooDeep
  | n + 1, right, rank => do
    let kind ← peekKind 0
    match kind.precedence? with
    | none => return right
    | some next =>
      if rank < next then
        let right ← climb n right (rank + 1)
        absorb n right rank
      else if next = rank ∧ kind.groupsRight then
        let right ← climb n right rank
        absorb n right rank
      else return right

/-- An atom, if one is next. -/
def atom? : Nat → Reading σ (Option Expr)
  | 0 => throw .tooDeep
  | n + 1 => do
    let kind ← peekKind 0
    if kind = .openParen then
      let _ ← take
      let inside ← require .inner (← expression? n)
      let _ ← expect .closeParen (.mark ')')
      return some inside
    else
      match UnaryOp.ofKind? kind with
      | some op =>
        let operator ← take
        let operand ← require (.operand operator.text) (← atom? n)
        return some (.unary op operand)
      | none =>
        match ← name? with
        | some found => return some (← reference n found)
        | none => return (← literal?).map .literal

/-- What a name refers to: a call, an element or a variable. -/
def reference : Nat → String → Reading σ Expr
  | 0, _ => throw .tooDeep
  | n + 1, found => do
    if ← takeIf .openParen then return .call found (← arguments n)
    else if ← takeIf .openBracket then
      let index ← require .index (← expression? n)
      let _ ← expect .closeBracket (.mark ']')
      return .element found index
    else return .var found

/-- One argument or more, and the closing parenthesis. -/
def arguments : Nat → Reading σ (List Expr)
  | 0 => throw .tooDeep
  | n + 1 => do
    let argument ← require .value (← expression? n)
    if ← takeIf .closeParen then return [argument]
    else
      let _ ← expect .comma .commaBetweenArguments
      return argument :: (← arguments n)

end

/-- An expression, which must be there. -/
def expression (n : Nat) (wanted : Expectation) : Reading σ Expr := do require wanted (← expression? n)

end ScriptLang.Grammar
