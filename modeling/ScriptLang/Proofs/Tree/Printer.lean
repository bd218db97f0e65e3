/-
  ScriptLang.Proofs.Tree.Printer — a printer that keeps its depth as it goes through a tree.

  The depth is raised for the lines of a block and lowered after them. Every part of a tree is
  printed by the same printer, one after the other, so what is printed could depend on what was
  printed before it.
  - `Printer.statement_run`: it does not: a statement is printed as its source at the depth that
    the printer has, and leaves the printer at that depth.
  - `Printer.program_eq`: a program is printed as its source.
-/

import ScriptLang.Proofs.Tree.Lines

namespace ScriptLang.Printer

/-- Printing at a depth, which may change on the way. -/
abbrev Printing := StateM Nat (List Char)

/-- The indentation at the depth reached. -/
def pad : Printing := return indent (← get)

mutual

def expression : Expr → Printing
  | .literal value => return value.source
  | .var name => return name.toList
  | .call function arguments => return function.toList ++ '(' :: joinWith ", ".toList (← list arguments) ++ [')']
  | .element array index => return array.toList ++ '[' :: (← expression index) ++ [']']
  | .unary op operand => return op.symbol.toList ++ (← expression operand)
  | .binary op left right => do
    let left ← expression left
    return '(' :: left ++ ' ' :: op.symbol.toList ++ ' ' :: (← expression right) ++ [')']

def list : List Expr → StateM Nat (List (List Char))
  | [] => return []
  | e :: es => return (← expression e) :: (← list es)

end

mutual

def statement : Stmt → Printing
  | .declare name value => return "let ".toList ++ name.toList ++ " = ".toList ++ (← expression value)
  | .declareArray name length => return "let ".toList ++ name.toList ++ " = [".toList ++ (← expression length) ++ [']']
  | .assign name value => return name.toList ++ " = ".toList ++ (← expression value)
  | .assignElement array index value => do
    let index ← expression index
    return array.toList ++ '[' :: index ++ "] = ".toList ++ (← expression value)
  | .ifThen condition body => return "if ".toList ++ (← expression condition) ++ ' ' :: (← block body)
  | .ifElse condition body otherwise => do
    let out := "if ".toList ++ (← expression condition) ++ ' ' :: (← block body)
    return out ++ " else ".toList ++ (← block otherwise)
  | .whileLoop condition body => return "while ".toList ++ (← expression condition) ++ ' ' :: (← block body)
  | .define function parameters body =>
    return "def ".toList ++ function.toList ++ '(' :: joinWith ", ".toList (parameters.map String.toList) ++ ") ".toList ++
      (← block body)
  | .returns none => return "return".toList
  | .returns (some value) => return "return ".toList ++ (← expression value)
  | .block body => block body
  | .expression value => expression value

def lines : List Stmt → StateM Nat (List (List Char))
  | [] => return []
  | s :: ss => do
    let text ← statement s
    return ((← pad) ++ text) :: (← lines ss)

/-- A block whose lines come to no text has braces alone. -/
def block (body : List Stmt) : Printing := do
  modify (· + 1)
  let text := joinWith ['\n'] (← lines body)
  modify (· - 1)
  if text.isEmpty then return "\x7b\n".toList ++ (← pad) ++ ['}']
  else return "\x7b\n".toList ++ text ++ '\n' :: (← pad) ++ ['}']

end

/-- A program is printed from depth zero. -/
def program (scope : Scope) : List Char := joinWith ['\n'] ((lines scope).run 0).run.1 ++ ['\n']

/-! ## The depth is kept -/

mutual

theorem expression_run (d : Nat) : ∀ e : Expr, (expression e).run d = pure (e.source, d)
  | .literal _ => by simp [expression, Expr.source]
  | .var _ => by simp [expression, Expr.source]
  | .call _ arguments => by simp [expression, Expr.source, list_run d arguments]
  | .element _ index => by simp [expression, Expr.source, expression_run d index]
  | .unary _ operand => by simp [expression, Expr.source, expression_run d operand]
  | .binary _ left right => by simp [expression, Expr.source, expression_run d left, expression_run d right]

theorem list_run (d : Nat) : ∀ es : List Expr, (list es).run d = pure (Expr.sources es, d)
  | [] => by simp [list, Expr.sources]
  | e :: es => by simp [list, Expr.sources, expression_run d e, list_run d es]

end

theorem joinWith_ne_nil {line : List Char} (h : line ≠ []) (separator : List Char) (lines : List (List Char)) :
    joinWith separator (line :: lines) ≠ [] := by
  cases lines with
  | nil => simp [joinWith_singleton, h]
  | cons m lines => simp [joinWith_cons, h]

/-- A block is printed with braces alone if it has no statements, and only then: every line of
    a block is indented, so there is no other block whose lines come to no text. -/
theorem block_run {d : Nat} {body : List Stmt}
    (h : (lines body).run (d + 1) = pure (Stmt.linesAt (d + 1) body, d + 1)) :
    (block body).run d = pure (braced d (Stmt.linesAt (d + 1) body), d) := by
  cases body with
  | nil => simp [block, pad, h, Stmt.linesAt, joinWith, braced]
  | cons s ss =>
    have hindent : indent (d + 1) ++ s.sourceAt (d + 1) ≠ [] := by simp [indent]
    simp [block, pad, h, Stmt.linesAt, joinWith_ne_nil hindent, braced]

mutual

theorem statement_run (d : Nat) : ∀ s : Stmt, (statement s).run d = pure (s.sourceAt d, d)
  | .declare _ value | .declareArray _ value | .assign _ value | .returns (some value) | .expression value => by
    simp only [statement, StateT.run_bind, expression_run d value, pure_bind, StateT.run_pure]
    rfl
  | .assignElement _ index value => by
    simp only [statement, StateT.run_bind, expression_run d index, expression_run d value, pure_bind, StateT.run_pure]
    rfl
  | .ifThen condition body | .whileLoop condition body => by
    simp only [statement, StateT.run_bind, expression_run d condition, block_run (lines_run (d + 1) body), pure_bind,
      StateT.run_pure]
    rfl
  | .ifElse condition body otherwise => by
    simp only [statement, StateT.run_bind, expression_run d condition, block_run (lines_run (d + 1) body),
      block_run (lines_run (d + 1) otherwise), pure_bind, StateT.run_pure]
    rfl
  | .define _ _ body | .block body => by
    simp only [statement, StateT.run_bind, block_run (lines_run (d + 1) body), pure_bind, StateT.run_pure]
    rfl
  | .returns none => by
    simp only [statement, StateT.run_pure]
    rfl

theorem lines_run (d : Nat) : ∀ ss : List Stmt, (lines ss).run d = pure (Stmt.linesAt d ss, d)
  | [] => by
    simp only [lines, StateT.run_pure]
    rfl
  | s :: ss => by
    simp only [lines, pad, StateT.run_bind, StateT.run_get, statement_run d s, lines_run d ss, pure_bind, StateT.run_pure]
    rfl

end

theorem program_eq (scope : Scope) : program scope = scope.source := by
  simp [program, lines_run, Scope.source]

end ScriptLang.Printer
