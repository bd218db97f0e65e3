/-
  ScriptLang.Token.Kind — the kinds of tokens, and what the grammar asks of a kind.

  Two spellings name a kind: `label`, used by the token listing, and `tag`, used by the
  JSON form of a token. `precedence?` ranks the binary operators from 1 (loosest) to 8
  (tightest); only `^` groups to the right. The shifts and the bitwise marks are ranked
  although no operator of the tree is built from them.
  - `precedence_pos` / `precedence_le`: every rank is between 1 and 8.
  - `groupsRight_iff`: `^` is the only right-grouping kind.
-/

namespace ScriptLang.Token

inductive Kind where
  | letWord
  | ifWord
  | elseWord
  | whileWord
  | defWord
  | returnWord
  | emptyWord
  | trueWord
  | falseWord
  /-- A name of a variable or function. -/
  | name
  | string
  | number
  | date
  | newline
  | semicolon
  | comment
  | openBrace
  | closeBrace
  | openParen
  | closeParen
  | openBracket
  | closeBracket
  | comma
  /-- A single equals sign. -/
  | assign
  | plus
  | minus
  | star
  | slash
  | percent
  | caret
  | less
  | lessEqual
  | greater
  | greaterEqual
  | equal
  | notEqual
  /-- `and`, or two ampersands. -/
  | and
  /-- `or`, or two bars. -/
  | or
  | not
  | bang
  | tilde
  | shiftLeft
  | shiftRight
  | ampersand
  | bar
  | doubleCaret
  /-- The end of the text, given again and again once it is reached. -/
  | endOfText
  deriving DecidableEq, Repr

namespace Kind

/-- Every kind, words first. -/
def all : List Kind :=
  [letWord, ifWord, elseWord, whileWord, defWord, returnWord, emptyWord, trueWord, falseWord, name, string, number,
   date, newline, semicolon, comment, openBrace, closeBrace, openParen, closeParen, openBracket, closeBracket, comma,
   assign, plus, minus, star, slash, percent, caret, less, lessEqual, greater, greaterEqual, equal, notEqual, and, or,
   not, bang, tilde, shiftLeft, shiftRight, ampersand, bar, doubleCaret, endOfText]

/-- The name of a kind in the token listing. -/
def label : Kind → String
  | letWord => "LET"
  | ifWord => "IF"
  | elseWord => "ELSE"
  | whileWord => "WHILE"
  | defWord => "DEF"
  | returnWord => "RETURN"
  | emptyWord => "EMPTY"
  | trueWord => "TRUE"
  | falseWord => "FALSE"
  | name => "QUALIFIER"
  | string => "STRING"
  | number => "NUMBER"
  | date => "DATE"
  | newline => "NEWLINE"
  | semicolon => "SEMICOLON"
  | comment => "COMMENT"
  | openBrace => "OPEN_CURLY"
  | closeBrace => "CLOSE_CURLY"
  | openParen => "OPEN_PAREN"
  | closeParen => "CLOSE_PAREN"
  | openBracket => "OPEN_SQUARE"
  | closeBracket => "CLOSE_SQUARE"
  | comma => "COMMA"
  | assign => "EQUAL_SIGN"
  | plus => "PLUS"
  | minus => "HYPHEN"
  | star => "ASTERISK"
  | slash => "FORWARD_SLASH"
  | percent => "PERCENT"
  | caret => "CARET"
  | less => "LESS"
  | lessEqual => "LESS_EQUAL"
  | greater => "GREATER"
  | greaterEqual => "GREATER_EQUAL"
  | equal => "EQUALS"
  | notEqual => "NOT_EQUALS"
  | and => "AND"
  | or => "OR"
  | not => "NOT"
  | bang => "EXCLAIM"
  | tilde => "TILDE"
  | shiftLeft => "SHIFT_LEFT"
  | shiftRight => "SHIFT_RIGHT"
  | ampersand => "AMPERSAND"
  | bar => "PIPE"
  | doubleCaret => "XOR"
  | endOfText => "EOT"

/-- The kind that a listing label names. -/
def ofLabel? (text : String) : Option Kind := all.find? fun k => k.label == text

/-- The name of a kind in the JSON form of a token. -/
def tag : Kind → String
  | letWord => "Let"
  | ifWord => "If"
  | elseWord => "Else"
  | whileWord => "While"
  | defWord => "Define"
  | returnWord => "Return"
  | emptyWord => "Empty"
  | trueWord => "True"
  | falseWord => "False"
  | name => "Qualifier"
  | string => "StringLiteral"
  | number => "NumberLiteral"
  | date => "DateLiteral"
  | newline => "Newline"
  | semicolon => "Semicolon"
  | comment => "Comment"
  | openBrace => "OpenCurly"
  | closeBrace => "CloseCurly"
  | openParen => "OpenParen"
  | closeParen => "CloseParen"
  | openBracket => "OpenSquare"
  | closeBracket => "CloseSquare"
  | comma => "Comma"
  | assign => "EqualSign"
  | plus => "Plus"
  | minus => "Hyphen"
  | star => "Asterisk"
  | slash => "ForwardSlash"
  | percent => "Percent"
  | caret => "Caret"
  | less => "Less"
  | lessEqual => "LessEqual"
  | greater => "Greater"
  | greaterEqual => "GreaterEqual"
  | equal => "Equals"
  | notEqual => "NotEquals"
  | and => "And"
  | or => "Or"
  | not => "Not"
  | bang => "Exclaim"
  | tilde => "Tilde"
  | shiftLeft => "ShiftLeft"
  | shiftRight => "ShiftRight"
  | ampersand => "Ampersand"
  | bar => "Pipe"
  | doubleCaret => "Xor"
  | endOfText => "Eot"

/-! ## What the grammar asks -/

/-- The rank of a binary operator, higher binding tighter; none for every other kind. -/
def precedence? : Kind → Option Nat
  | caret => some 8
  | star | slash | percent => some 7
  | plus | minus => some 6
  | shiftLeft | shiftRight => some 5
  | less | lessEqual | greater | greaterEqual => some 4
  | equal | notEqual => some 3
  | ampersand | bar | doubleCaret => some 2
  | and | or => some 1
  | _ => none

def isBinaryOperator (k : Kind) : Bool := k.precedence?.isSome

def groupsRight (k : Kind) : Bool := k == caret

def isUnaryOperator : Kind → Bool
  | minus | tilde | not | bang => true
  | _ => false

/-- A line break or a semicolon. -/
def isTerminator : Kind → Bool
  | newline | semicolon => true
  | _ => false

def isComment (k : Kind) : Bool := k == comment

def closesScope (k : Kind) : Bool := k == closeBrace

/-- What may stand between two statements and is skipped there. -/
def isSeparator (k : Kind) : Bool := k.isTerminator || k.isComment

/-- What may follow a statement. -/
def endsStatement (k : Kind) : Bool := k.isSeparator || k == endOfText

theorem precedence_pos {k : Kind} {p : Nat} (h : k.precedence? = some p) : 1 ≤ p := by
  cases k <;> simp [precedence?] at h <;> omega

theorem precedence_le {k : Kind} {p : Nat} (h : k.precedence? = some p) : p ≤ 8 := by
  cases k <;> simp [precedence?] at h <;> omega

theorem groupsRight_iff (k : Kind) : k.groupsRight = true ↔ k.precedence? = some 8 := by
  cases k <;> simp [groupsRight, precedence?]

end Kind

end ScriptLang.Token
