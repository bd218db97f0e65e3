/-
  ScriptLang.Grammar.Statement — reading statements and scopes.

  A scope is a run of statements up to a closing brace or the end of the text, both of which
  stay. Line breaks, semicolons and comments between statements are skipped; each statement
  must be followed by one of them or by the end of the text.

  Two decisions look ahead without taking anything. After the block of an `if`, line breaks
  and comments are passed over to see whether `else` follows; they are taken only if it
  does. After a name and an opening bracket, the matching bracket is sought and the token
  after it tells an assignment to an element from an expression.

  `statement?` gives nothing where the tokens form no statement at all.
-/

import ScriptLang.Grammar.Expression

namespace ScriptLang.Grammar

open Lookahead

variable {σ : Type} [TokenStream σ]

/-! ## Looking ahead -/

/-- The place of the first token at or after `ahead` that is no line break and no comment. -/
def pastLayout : Nat → Nat → Reading σ Nat
  | 0, _ => throw .tooDeep
  | n + 1, ahead => do
    let kind ← peekKind ahead
    if kind = .newline ∨ kind = .comment then pastLayout n (ahead + 1) else return ahead

/-- Whether an equals sign follows the bracket that closes the `depth` brackets open at
    `ahead`. At the end of the text none does. -/
def assignsElement : Nat → Nat → Nat → Reading σ Bool
  | 0, _, _ => throw .tooDeep
  | _ + 1, ahead, 0 => return (← peekKind ahead) = .assign
  | n + 1, ahead, depth + 1 => do
    match ← peekKind ahead with
    | .openBracket => assignsElement n (ahead + 1) (depth + 2)
    | .closeBracket => assignsElement n (ahead + 1) depth
    | .endOfText => return false
    | _ => assignsElement n (ahead + 1) (depth + 1)

/-! ## Statements without blocks -/

/-- What follows `let`. -/
def declaration? (n : Nat) : Reading σ (Option Stmt) := do
  let target ← name .name
  let _ ← expect .assign (.mark '=')
  if ← takeIf .openBracket then
    let length ← expression n .arrayLength
    let _ ← expect .closeBracket (.mark ']')
    return some (.declareArray target length)
  else return (← expression? n).map (.declare target)

def assignment? (n : Nat) : Reading σ (Option Stmt) := do
  let target ← name .name
  let _ ← expect .assign (.mark '=')
  return (← expression? n).map (.assign target)

def elementAssignment (n : Nat) : Reading σ Stmt := do
  let array ← name .name
  let _ ← expect .openBracket (.mark '[')
  let index ← expression n .index
  let _ ← expect .closeBracket (.mark ']')
  let _ ← expect .assign (.mark '=')
  let value ← expression n .value
  return .assignElement array index value

/-- What follows `return`: nothing before the end of a statement, else a value. -/
def returned (n : Nat) : Reading σ Stmt := do
  if (← peekKind 0).endsStatement then return .returns none
  else return .returns (some (← expression n .value))

/-- One parameter or more, and the closing parenthesis. -/
def parameters : Nat → Reading σ (List String)
  | 0 => throw .tooDeep
  | n + 1 => do
    let parameter ← name .parameter
    if ← takeIf .closeParen then return [parameter]
    else
      let _ ← expect .comma (.mark ',')
      return parameter :: (← parameters n)

/-- A statement that starts with a name, or any other expression. -/
def plainStatement? (n : Nat) : Reading σ (Option Stmt) := do
  if (← peekKind 0) = .name then
    let second ← peekKind 1
    if second = .assign then assignment? n
    else if second = .openBracket then
      if ← assignsElement n 2 1 then return some (← elementAssignment n)
      else return (← expression? n).map .expression
    else return (← expression? n).map .expression
  else return (← expression? n).map .expression

/-! ## Statements with blocks -/

mutual

/-- The statements up to a closing brace or the end of the text. -/
def scope : Nat → Reading σ Scope
  | 0 => throw .tooDeep
  | n + 1 => do
    let kind ← peekKind 0
    if kind = .endOfText ∨ kind.closesScope then return []
    else if kind.isSeparator then
      let _ ← take
      scope n
    else
      match ← statement? n with
      | none => throw (.noStatement (← peek 0))
      | some found =>
        if (← peekKind 0).endsStatement then return found :: (← scope n)
        else fail .endOfStatement

/-- A scope between braces. -/
def block : Nat → Reading σ Scope
  | 0 => throw .tooDeep
  | n + 1 => do
    let _ ← expect .openBrace (.mark '\x7b')
    let body ← scope n
    let _ ← expect .closeBrace (.mark '\x7d')
    return body

/-- A statement, if the tokens form one. -/
def statement? : Nat → Reading σ (Option Stmt)
  | 0 => throw .tooDeep
  | n + 1 => do
    match ← peekKind 0 with
    | .letWord =>
      let _ ← take
      declaration? n
    | .ifWord =>
      let _ ← take
      return some (← conditional n)
    | .whileWord =>
      let _ ← take
      let condition ← expression n .whileCondition
      return some (.whileLoop condition (← block n))
    | .defWord =>
      let _ ← take
      let function ← name .functionName
      let _ ← expect .openParen (.mark '(')
      let names ← parameters n
      return some (.define function names (← block n))
    | .returnWord =>
      let _ ← take
      return some (← returned n)
    | .openBrace => return some (.block (← block n))
    | _ => plainStatement? n

/-- What follows `if`. -/
def conditional : Nat → Reading σ Stmt
  | 0 => throw .tooDeep
  | n + 1 => do
    let condition ← expression n .ifCondition
    let body ← block n
    let ahead ← pastLayout n 0
    if (← peekKind ahead) = .elseWord then
      skip (ahead + 1)
      return .ifElse condition body (← block n)
    else return .ifThen condition body

end

end ScriptLang.Grammar
