/-
  ScriptLang.Tree.Basic — programs as trees.

  A scope is a list of statements. Equality of trees is decidable; doubles are told apart
  by their encoding, so that 0.0 and -0.0 differ.
-/

import ScriptLang.Tree.Literal
import ScriptLang.Tree.Operator

namespace ScriptLang

inductive Expr where
  | literal (value : Literal)
  | var (name : String)
  /-- A call; the grammar gives it at least one argument. -/
  | call (function : String) (arguments : List Expr)
  /-- An element of an array. -/
  | element (array : String) (index : Expr)
  | unary (op : UnaryOp) (operand : Expr)
  | binary (op : BinaryOp) (left right : Expr)

inductive Stmt where
  | declare (name : String) (value : Expr)
  | declareArray (name : String) (length : Expr)
  | assign (name : String) (value : Expr)
  | assignElement (array : String) (index value : Expr)
  | ifThen (condition : Expr) (body : List Stmt)
  | ifElse (condition : Expr) (body otherwise : List Stmt)
  | whileLoop (condition : Expr) (body : List Stmt)
  | define (function : String) (parameters : List String) (body : List Stmt)
  | returns (value : Option Expr)
  | block (body : List Stmt)
  | expression (value : Expr)

abbrev Scope := List Stmt

/-- A name that can be read back: not empty, and no ASCII digit in front. -/
def isProperName (name : String) : Bool :=
  match name.toList with
  | [] => false
  | c :: _ => !c.isDigit

/-! ## Equality -/

mutual

def Expr.same : Expr → Expr → Bool
  | .literal a, .literal b => a = b
  | .var a, .var b => a = b
  | .call f as, .call g bs => f = g && Expr.sameAll as bs
  | .element a i, .element b j => a = b && Expr.same i j
  | .unary o a, .unary p b => o = p && Expr.same a b
  | .binary o a b, .binary p c d => o = p && Expr.same a c && Expr.same b d
  | _, _ => false

def Expr.sameAll : List Expr → List Expr → Bool
  | [], [] => true
  | a :: as, b :: bs => Expr.same a b && Expr.sameAll as bs
  | _, _ => false

end

mutual

theorem Expr.same_iff (a b : Expr) : a.same b = true ↔ a = b := by
  cases a <;> cases b <;>
    simp [Expr.same, Expr.same_iff, Expr.sameAll_iff, and_assoc]

theorem Expr.sameAll_iff (as bs : List Expr) : Expr.sameAll as bs = true ↔ as = bs := by
  cases as <;> cases bs <;> simp [Expr.sameAll, Expr.same_iff, Expr.sameAll_iff]

end

instance : DecidableEq Expr := fun a b => decidable_of_iff _ (Expr.same_iff a b)

mutual

def Stmt.same : Stmt → Stmt → Bool
  | .declare n a, .declare m b => n = m && a = b
  | .declareArray n a, .declareArray m b => n = m && a = b
  | .assign n a, .assign m b => n = m && a = b
  | .assignElement n i a, .assignElement m j b => n = m && i = j && a = b
  | .ifThen c s, .ifThen d t => c = d && Stmt.sameAll s t
  | .ifElse c s s', .ifElse d t t' => c = d && Stmt.sameAll s t && Stmt.sameAll s' t'
  | .whileLoop c s, .whileLoop d t => c = d && Stmt.sameAll s t
  | .define f ps s, .define g qs t => f = g && ps = qs && Stmt.sameAll s t
  | .returns a, .returns b => a = b
  | .block s, .block t => Stmt.sameAll s t
  | .expression a, .expression b => a = b
  | _, _ => false

def Stmt.sameAll : List Stmt → List Stmt → Bool
  | [], [] => true
  | a :: as, b :: bs => Stmt.same a b && Stmt.sameAll as bs
  | _, _ => false

end

mutual

theorem Stmt.same_iff (a b : Stmt) : a.same b = true ↔ a = b := by
  cases a <;> cases b <;>
    simp [Stmt.same, Stmt.sameAll_iff, and_assoc]

theorem Stmt.sameAll_iff (as bs : List Stmt) : Stmt.sameAll as bs = true ↔ as = bs := by
  cases as <;> cases bs <;> simp [Stmt.sameAll, Stmt.same_iff, Stmt.sameAll_iff]

end

instance : DecidableEq Stmt := fun a b => decidable_of_iff _ (Stmt.same_iff a b)

end ScriptLang
