/-
  ScriptLang.Tree.Json — the JSON form of a tree.

  A node is an object with one field, its tag, around its parts; a leaf expression is a
  term inside an expression. A scope is an array. A missing part (no else branch, a return
  without a value) is null. A date is its ISO text.
-/

import ScriptLang.Token.Basic
import ScriptLang.Tree.Basic
import ScriptLang.Json.Basic

namespace ScriptLang

namespace Json

/-- A value under its tag. -/
def tagged (tag : String) (value : Json) : Json := .object [(tag, value)]

/-- A named thing. -/
def named (name : String) : Json := .object [("name", .string name)]

end Json

open Json (tagged named)

def Literal.toJson : Literal → Json
  | .empty => .string "Empty"
  | .boolean value => tagged "Boolean" (.bool value)
  | .string value => tagged "Str" (.string value)
  | .integer value => tagged "Integer" (.integer value.toInt)
  | .double value => tagged "Double" (if value.isFinite then .double value else .null)
  | .date value => tagged "Date" (.string (String.ofList value.iso))

mutual

def Expr.toJson : Expr → Json
  | .literal value => tagged "Term" (tagged "Literal" value.toJson)
  | .var name => tagged "Term" (tagged "Variable" (named name))
  | .call function arguments =>
    tagged "Term" (tagged "Call"
      (.object [("function", named function), ("arguments", .array (Expr.toJsons arguments))]))
  | .element array index =>
    tagged "Term" (tagged "ArrayAccess" (.object [("qualifier", named array), ("index", index.toJson)]))
  | .unary op operand => tagged "Unary" (.object [("op", .string op.tag), ("operand", operand.toJson)])
  | .binary op left right =>
    tagged "Binary" (.object [("op", .string op.tag), ("lhs", left.toJson), ("rhs", right.toJson)])

def Expr.toJsons : List Expr → List Json
  | [] => []
  | e :: es => e.toJson :: Expr.toJsons es

end

mutual

def Stmt.toJson : Stmt → Json
  | .declare name value => tagged "Declare" (.object [("variable", named name), ("value", value.toJson)])
  | .declareArray name length =>
    tagged "ArrayDeclare" (.object [("variable", named name), ("length", length.toJson)])
  | .assign name value => tagged "Assign" (.object [("variable", named name), ("value", value.toJson)])
  | .assignElement array index value =>
    tagged "ArrayAssign"
      (.object [("variable", named array), ("index", index.toJson), ("value", value.toJson)])
  | .ifThen condition body =>
    tagged "If" (.object [("condition", condition.toJson), ("then_scope", .array (Stmt.toJsons body)),
      ("else_scope", .null)])
  | .ifElse condition body otherwise =>
    tagged "If" (.object [("condition", condition.toJson), ("then_scope", .array (Stmt.toJsons body)),
      ("else_scope", .array (Stmt.toJsons otherwise))])
  | .whileLoop condition body =>
    tagged "While" (.object [("condition", condition.toJson), ("body", .array (Stmt.toJsons body))])
  | .define function parameters body =>
    tagged "Function" (.object [("name", named function), ("params", .array (parameters.map named)),
      ("body", .array (Stmt.toJsons body))])
  | .returns none => tagged "Return" .null
  | .returns (some value) => tagged "Return" value.toJson
  | .block body => tagged "Scope" (.array (Stmt.toJsons body))
  | .expression value => tagged "Expression" value.toJson

def Stmt.toJsons : List Stmt → List Json
  | [] => []
  | s :: ss => s.toJson :: Stmt.toJsons ss

end

def Scope.toJson (scope : Scope) : Json := .array (Stmt.toJsons scope)

def Token.toJson (t : Token) : Json := .object [("kind", .string t.kind.tag), ("text", .string t.text)]

end ScriptLang
