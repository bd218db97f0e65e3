/-
  ScriptLang.Tree.Operator — the operators of expressions.

  `symbol` is how an operator is written, `tag` its name in the JSON form of a tree.
  `ofKind?` gives the operator that a kind of token stands for. The shifts, the bitwise
  operators, increment and decrement are reserved: no token stands for them.
  - `BinaryOp.precedence?_of_ofKind?`: a kind that stands for a binary operator has a rank.
  - `UnaryOp.ofKind?_isSome`: the kinds that stand for a unary operator are the unary ones.
-/

import ScriptLang.Token.Kind

namespace ScriptLang

open Token (Kind)

inductive BinaryOp where
  | exponent
  | multiply
  | divide
  | modulo
  | add
  | subtract
  | shiftLeft
  | shiftRight
  | less
  | lessEqual
  | greater
  | greaterEqual
  | equal
  | notEqual
  | bitAnd
  | bitOr
  | bitXor
  | and
  | or
  deriving DecidableEq, Repr

namespace BinaryOp

def all : List BinaryOp :=
  [exponent, multiply, divide, modulo, add, subtract, shiftLeft, shiftRight, less, lessEqual, greater, greaterEqual,
   equal, notEqual, bitAnd, bitOr, bitXor, and, or]

def symbol : BinaryOp → String
  | exponent => "^"
  | multiply => "*"
  | divide => "/"
  | modulo => "%"
  | add => "+"
  | subtract => "-"
  | shiftLeft => "<<"
  | shiftRight => ">>"
  | less => "<"
  | lessEqual => "<="
  | greater => ">"
  | greaterEqual => ">="
  | equal => "=="
  | notEqual => "!="
  | bitAnd => "&"
  | bitOr => "|"
  | bitXor => "^^"
  | and => "and"
  | or => "or"

def tag : BinaryOp → String
  | exponent => "Exponent"
  | multiply => "Multiply"
  | divide => "Divide"
  | modulo => "Modulo"
  | add => "Add"
  | subtract => "Subtract"
  | shiftLeft => "ShiftLeft"
  | shiftRight => "ShiftRight"
  | less => "Less"
  | lessEqual => "LessEqual"
  | greater => "Greater"
  | greaterEqual => "GreaterEqual"
  | equal => "Equal"
  | notEqual => "NotEqual"
  | bitAnd => "BitAnd"
  | bitOr => "BitOr"
  | bitXor => "BitXor"
  | and => "And"
  | or => "Or"

def ofTag? (text : String) : Option BinaryOp := all.find? fun op => op.tag == text

def ofKind? : Kind → Option BinaryOp
  | .caret => some exponent
  | .star => some multiply
  | .slash => some divide
  | .percent => some modulo
  | .plus => some add
  | .minus => some subtract
  | .less => some less
  | .lessEqual => some lessEqual
  | .greater => some greater
  | .greaterEqual => some greaterEqual
  | .equal => some equal
  | .notEqual => some notEqual
  | .and => some and
  | .or => some or
  | _ => none

theorem precedence?_of_ofKind? {k : Kind} {op : BinaryOp} (h : ofKind? k = some op) : k.precedence?.isSome = true := by
  cases k <;> simp [ofKind?, Kind.precedence?] at h ⊢

end BinaryOp

inductive UnaryOp where
  | increment
  | decrement
  | negate
  | invert
  | not
  deriving DecidableEq, Repr

namespace UnaryOp

def all : List UnaryOp := [increment, decrement, negate, invert, not]

def symbol : UnaryOp → String
  | increment => "++"
  | decrement => "--"
  | negate => "-"
  | invert => "~"
  | not => "!"

def tag : UnaryOp → String
  | increment => "Increment"
  | decrement => "Decrement"
  | negate => "Negate"
  | invert => "Invert"
  | not => "Not"

def ofTag? (text : String) : Option UnaryOp := all.find? fun op => op.tag == text

def ofKind? : Kind → Option UnaryOp
  | .minus => some negate
  | .tilde => some invert
  | .not | .bang => some not
  | _ => none

theorem ofKind?_isSome (k : Kind) : (ofKind? k).isSome = k.isUnaryOperator := by cases k <;> rfl

end UnaryOp

end ScriptLang
