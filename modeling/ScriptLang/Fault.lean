/-
  ScriptLang.Fault — why a text is no program, and how that is worded.

  A fault keeps its cause: what was wanted and the token found instead. The wording is
  here only.
-/

import ScriptLang.Token.Basic
import ScriptLang.Text.Utf8

namespace ScriptLang

/-! ## Faults of the lexer -/

/-- Why no token starts at a place. -/
inductive LexicalCause where
  | unexpectedCharacter (c : Char)
  /-- A quote opens a string that nothing closes. -/
  | unterminatedString
  /-- A reason given by another source of tokens. -/
  | other (message : String)
  deriving DecidableEq, Repr

def LexicalCause.message : LexicalCause → String
  | .unexpectedCharacter c => "Unexpected character: " ++ c.toString
  | .unterminatedString => "Unterminated string."
  | .other message => message

structure LexicalFault where
  cause : LexicalCause
  /-- The line on which the failing lexeme starts. -/
  line : Nat
  deriving DecidableEq, Repr

def LexicalFault.message (f : LexicalFault) : String := s!"[line {f.line}] Error: " ++ f.cause.message

/-! ## Faults of the grammar -/

/-- What the grammar wanted where it found something else. -/
inductive Expectation where
  /-- One punctuation mark. -/
  | mark (c : Char)
  | commaBetweenArguments
  | name
  | functionName
  | parameter
  /-- A name that does not start with a digit. -/
  | properName
  | value
  | arrayLength
  | index
  | ifCondition
  | whileCondition
  /-- The inside of parentheses. -/
  | inner
  /-- The right operand of a binary operator, given by its text. -/
  | rightOperand (operator : String)
  /-- The operand of a unary operator, given by its text. -/
  | operand (operator : String)
  | endOfStatement
  | other (message : String)
  deriving DecidableEq, Repr

def Expectation.message : Expectation → String
  | mark c => "Expected '" ++ c.toString ++ "'"
  | commaBetweenArguments => "Expected ',' between arguments"
  | name => "Expected qualifier"
  | functionName => "Expected function name"
  | parameter => "Expected function parameter"
  | properName => "Invalid qualifier"
  | value => "Expected expression"
  | arrayLength => "Expected array length expression"
  | index => "Expected index expression"
  | ifCondition => "Expected if statement expression"
  | whileCondition => "Expected while statement expression"
  | inner => "Unparsable/invalid expression"
  | rightOperand operator => "Expected expression after '" ++ operator ++ "'"
  | operand operator => "Expected operand after '" ++ operator ++ "'"
  | endOfStatement => "Statement must end in a newline, ';', a comment or end of input"
  | other message => message

/-- The form that the text of a literal must have. -/
inductive LiteralForm where
  | number
  | date
  deriving DecidableEq, Repr

def LiteralForm.message : LiteralForm → String
  | number => "a number"
  | date => "a dd/MM/yyyy date"

inductive Fault where
  /-- Something else stands where `wanted` should. -/
  | unexpected (wanted : Expectation) (found : Token)
  /-- No statement starts or goes on at `found`. -/
  | noStatement (found : Token)
  /-- A binary operator that is reserved. -/
  | unsupportedOperator (operator : Token)
  /-- A literal token whose text has not the form of its kind. -/
  | malformed (literal : Token) (form : LiteralForm)
  /-- The program is over, yet `found` is left. -/
  | trailing (found : Token)
  | lexical (fault : LexicalFault)
  | encoding (fault : Utf8.Fault)
  /-- The bound on nesting was too small for the text. -/
  | tooDeep
  deriving DecidableEq, Repr

def Fault.message : Fault → String
  | unexpected wanted found => "Syntax error: " ++ wanted.message ++ " (found " ++ found.describe ++ ")"
  | noStatement found => "Incomplete/unparsable statement at " ++ found.describe
  | unsupportedOperator operator => "Unsupported operator: " ++ operator.text
  | malformed literal form => "Literal format error: " ++ literal.text ++ " (expected " ++ form.message ++ ")"
  | trailing found => "Unexpected token at end of input: " ++ found.describe
  | lexical fault => fault.message
  | encoding fault => fault.message
  | tooDeep => "Nesting is too deep"

end ScriptLang
