/-
  ScriptLang.Proofs.Grammar.Levels — the readers at one depth, from those one level down.

  The readers that call themselves or each other are taken as one function of the call, `Readers`.
  `Readers.next` says what a reader does and leaves open how the calls that it makes are answered.
  - `readers_succ`: the readers of the grammar at depth `n + 1` are those whose calls the readers
    at depth `n` answer.
-/

import ScriptLang.Grammar.Program

namespace ScriptLang.Grammar

open Lookahead
open Token (Kind)

/-- A call of a reader: which one, and with what. -/
inductive Call : Type → Type
  | expression : Call (Option Expr)
  | climb (left : Expr) (least : Nat) : Call Expr
  | absorb (right : Expr) (rank : Nat) : Call Expr
  | atom : Call (Option Expr)
  | reference (found : String) : Call Expr
  | arguments : Call (List Expr)
  | pastLayout (place : Nat) : Call Nat
  | assignsElement (place depth : Nat) : Call Bool
  | parameters : Call (List String)
  | scope : Call Scope
  | block : Call Scope
  | statement : Call (Option Stmt)
  | conditional : Call Stmt

/-- An answer to every call. -/
abbrev Readers (σ : Type) := ⦃α : Type⦄ → Call α → Reading σ α

variable {σ : Type} [TokenStream σ]

/-- The readers of the grammar at depth `n`. -/
def readers (n : Nat) : Readers σ
  | _, .expression => expression? n
  | _, .climb left least => climb n left least
  | _, .absorb right rank => absorb n right rank
  | _, .atom => atom? n
  | _, .reference found => reference n found
  | _, .arguments => arguments n
  | _, .pastLayout place => pastLayout n place
  | _, .assignsElement place depth => assignsElement n place depth
  | _, .parameters => parameters n
  | _, .scope => scope n
  | _, .block => block n
  | _, .statement => statement? n
  | _, .conditional => conditional n

namespace Readers

variable (r : Readers σ)

/-! ## Readers in one piece -/

def expression (wanted : Expectation) : Reading σ Expr := do require wanted (← r .expression)

def bare : Reading σ (Option Stmt) := return (← r .expression).map .expression

def declaration? : Reading σ (Option Stmt) := do
  let target ← name .name
  let _ ← expect .assign (.mark '=')
  if ← takeIf .openBracket then
    let length ← r.expression .arrayLength
    let _ ← expect .closeBracket (.mark ']')
    return some (.declareArray target length)
  else return (← r .expression).map (.declare target)

def assignment? : Reading σ (Option Stmt) := do
  let target ← name .name
  let _ ← expect .assign (.mark '=')
  return (← r .expression).map (.assign target)

def elementAssignment : Reading σ Stmt := do
  let array ← name .name
  let _ ← expect .openBracket (.mark '[')
  let index ← r.expression .index
  let _ ← expect .closeBracket (.mark ']')
  let _ ← expect .assign (.mark '=')
  let value ← r.expression .value
  return .assignElement array index value

def returned : Reading σ Stmt := do
  if (← peekKind 0).endsStatement then return .returns none
  else return .returns (some (← r.expression .value))

def plainStatement? : Reading σ (Option Stmt) := do
  if (← peekKind 0) = .name then
    let second ← peekKind 1
    if second = .assign then r.assignment?
    else if second = .openBracket then
      if ← r (.assignsElement 2 1) then return some (← r.elementAssignment)
      else r.bare
    else r.bare
  else r.bare

/-! ## One level up -/

/-- The readers whose calls these answer. -/
def next : Readers σ
  | _, .expression => do
    match ← r .atom with
    | some left => return some (← r (.climb left 0))
    | none => return none
  | _, .climb left least => do
    match (← peekKind 0).precedence? with
    | none => return left
    | some rank =>
      if rank < least then return left
      else
        let operator ← take
        let first ← require (.rightOperand operator.text) (← r .atom)
        let right ← r (.absorb first rank)
        let whole ← combine operator left right
        r (.climb whole least)
  | _, .absorb right rank => do
    let kind ← peekKind 0
    match kind.precedence? with
    | none => return right
    | some next =>
      if rank < next then
        let right ← r (.climb right (rank + 1))
        r (.absorb right rank)
      else if next = rank ∧ kind.groupsRight then
        let right ← r (.climb right rank)
        r (.absorb right rank)
      else return right
  | _, .atom => do
    let kind ← peekKind 0
    if kind = .openParen then
      let _ ← take
      let inside ← require .inner (← r .expression)
      let _ ← expect .closeParen (.mark ')')
      return some inside
    else
      match UnaryOp.ofKind? kind with
      | some op =>
        let operator ← take
        let operand ← require (.operand operator.text) (← r .atom)
        return some (.unary op operand)
      | none =>
        match ← name? with
        | some found => return some (← r (.reference found))
        | none => return (← literal?).map .literal
  | _, .reference found => do
    if ← takeIf .openParen then return .call found (← r .arguments)
    else if ← takeIf .openBracket then
      let index ← require .index (← r .expression)
      let _ ← expect .closeBracket (.mark ']')
      return .element found index
    else return .var found
  | _, .arguments => do
    let argument ← require .value (← r .expression)
    if ← takeIf .closeParen then return [argument]
    else
      let _ ← expect .comma .commaBetweenArguments
      return argument :: (← r .arguments)
  | _, .pastLayout place => do
    let kind ← peekKind place
    if kind = .newline ∨ kind = .comment then r (.pastLayout (place + 1)) else return place
  | _, .assignsElement place 0 => return (← peekKind place) = .assign
  | _, .assignsElement place (depth + 1) => do
    match ← peekKind place with
    | .openBracket => r (.assignsElement (place + 1) (depth + 2))
    | .closeBracket => r (.assignsElement (place + 1) depth)
    | .endOfText => return false
    | _ => r (.assignsElement (place + 1) (depth + 1))
  | _, .parameters => do
    let parameter ← name .parameter
    if ← takeIf .closeParen then return [parameter]
    else
      let _ ← expect .comma (.mark ',')
      return parameter :: (← r .parameters)
  | _, .scope => do
    let kind ← peekKind 0
    if kind = .endOfText ∨ kind.closesScope then return []
    else if kind.isSeparator then
      let _ ← take
      r .scope
    else
      match ← r .statement with
      | none => throw (.noStatement (← peek 0))
      | some found =>
        if (← peekKind 0).endsStatement then return found :: (← r .scope)
        else fail .endOfStatement
  | _, .block => do
    let _ ← expect .openBrace (.mark '\x7b')
    let body ← r .scope
    let _ ← expect .closeBrace (.mark '\x7d')
    return body
  | _, .statement => do
    match ← peekKind 0 with
    | .letWord =>
      let _ ← take
      r.declaration?
    | .ifWord =>
      let _ ← take
      return some (← r .conditional)
    | .whileWord =>
      let _ ← take
      let condition ← r.expression .whileCondition
      return some (.whileLoop condition (← r .block))
    | .defWord =>
      let _ ← take
      let function ← name .functionName
      let _ ← expect .openParen (.mark '(')
      let names ← r .parameters
      return some (.define function names (← r .block))
    | .returnWord =>
      let _ ← take
      return some (← r.returned)
    | .openBrace => return some (.block (← r .block))
    | _ => r.plainStatement?
  | _, .conditional => do
    let condition ← r.expression .ifCondition
    let body ← r .block
    let place ← r (.pastLayout 0)
    if (← peekKind place) = .elseWord then
      skip (place + 1)
      return .ifElse condition body (← r .block)
    else return .ifThen condition body

end Readers

theorem readers_succ (n : Nat) : readers (σ := σ) (n + 1) = (readers n).next := by
  funext α call
  cases call with
  | assignsElement place depth => cases depth <;> rfl
  | _ => rfl

end ScriptLang.Grammar
