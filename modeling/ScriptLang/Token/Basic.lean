/-
  ScriptLang.Token.Basic — a token: its kind and its text.

  A string's text leaves out the quotes around it. `display` is the token's line in the
  listing, where a line break is written out as a backslash and an n; `describe` is how
  a fault names a token.
-/

import ScriptLang.Token.Kind

namespace ScriptLang

structure Token where
  kind : Token.Kind
  text : String
  deriving DecidableEq, Repr

namespace Token

/-- The token that stands for the end of the text. -/
def endOfText : Token := ⟨.endOfText, ""⟩

def display (t : Token) : String :=
  match t.kind with
  | .newline => t.kind.label ++ " \\n"
  | _ => t.kind.label ++ " " ++ t.text

def describe (t : Token) : String :=
  match t.kind with
  | .endOfText => "end of input"
  | .newline => "newline"
  | _ => "'" ++ t.text ++ "'"

end Token

end ScriptLang
