/-
  ScriptLang.Tree.Source — a tree written out as a program.

  Every binary expression stands in parentheses, a unary operator touches its operand, and
  each statement of a block stands on a line of its own, four spaces further in. A block
  without statements is a pair of braces on two lines. `Scope.source` writes a program, one
  statement a line.
  - `Stmt.linesAt_append`: the lines of two scopes put together are their lines put together.
-/

import ScriptLang.Tree.Basic

namespace ScriptLang

/-- Puts `separator` between texts. -/
def joinWith (separator : List Char) (texts : List (List Char)) : List Char := separator.intercalate texts

mutual

def Expr.source : Expr → List Char
  | .literal value => value.source
  | .var name => name.toList
  | .call function arguments => function.toList ++ '(' :: joinWith ", ".toList (Expr.sources arguments) ++ [')']
  | .element array index => array.toList ++ '[' :: index.source ++ [']']
  | .unary op operand => op.symbol.toList ++ operand.source
  | .binary op left right => '(' :: left.source ++ ' ' :: op.symbol.toList ++ ' ' :: right.source ++ [')']

def Expr.sources : List Expr → List (List Char)
  | [] => []
  | e :: es => e.source :: Expr.sources es

end

/-- The indentation of a line at the given depth. -/
def indent (depth : Nat) : List Char := List.replicate (4 * depth) ' '

/-- A block at the given depth, around the lines of its body. -/
def braced (depth : Nat) (lines : List (List Char)) : List Char :=
  match lines with
  | [] => "\x7b\n".toList ++ indent depth ++ ['}']
  | _ => "\x7b\n".toList ++ joinWith ['\n'] lines ++ '\n' :: indent depth ++ ['}']

mutual

/-- A statement at the given depth, without the indentation of its first line. -/
def Stmt.sourceAt (depth : Nat) : Stmt → List Char
  | .declare name value => "let ".toList ++ name.toList ++ " = ".toList ++ value.source
  | .declareArray name length => "let ".toList ++ name.toList ++ " = [".toList ++ length.source ++ [']']
  | .assign name value => name.toList ++ " = ".toList ++ value.source
  | .assignElement array index value =>
    array.toList ++ '[' :: index.source ++ "] = ".toList ++ value.source
  | .ifThen condition body =>
    "if ".toList ++ condition.source ++ ' ' :: braced depth (Stmt.linesAt (depth + 1) body)
  | .ifElse condition body otherwise =>
    "if ".toList ++ condition.source ++ ' ' :: braced depth (Stmt.linesAt (depth + 1) body) ++ " else ".toList ++
      braced depth (Stmt.linesAt (depth + 1) otherwise)
  | .whileLoop condition body =>
    "while ".toList ++ condition.source ++ ' ' :: braced depth (Stmt.linesAt (depth + 1) body)
  | .define function parameters body =>
    "def ".toList ++ function.toList ++ '(' :: joinWith ", ".toList (parameters.map String.toList) ++ ") ".toList ++
      braced depth (Stmt.linesAt (depth + 1) body)
  | .returns none => "return".toList
  | .returns (some value) => "return ".toList ++ value.source
  | .block body => braced depth (Stmt.linesAt (depth + 1) body)
  | .expression value => value.source

/-- The statements of a scope at the given depth, one line or group of lines each. -/
def Stmt.linesAt (depth : Nat) : List Stmt → List (List Char)
  | [] => []
  | s :: ss => (indent depth ++ s.sourceAt depth) :: Stmt.linesAt depth ss

end

theorem Stmt.linesAt_append (depth : Nat) (a b : List Stmt) :
    Stmt.linesAt depth (a ++ b) = Stmt.linesAt depth a ++ Stmt.linesAt depth b := by
  induction a with
  | nil => rfl
  | cons s ss ih => simp [Stmt.linesAt, ih]

/-- A program as text. -/
def Scope.source (scope : Scope) : List Char := joinWith ['\n'] (Stmt.linesAt 0 scope) ++ ['\n']

end ScriptLang
