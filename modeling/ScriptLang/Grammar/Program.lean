/-
  ScriptLang.Grammar.Program — reading a whole program.

  A program is a scope that ends with the text. Every reading takes the source back to its
  start, so that earlier readings leave no trace. The bound on depth comes from the source:
  every level of a reading takes a token within eight steps.
-/

import ScriptLang.Grammar.Statement

namespace ScriptLang

namespace Grammar

open Lookahead

variable {σ : Type} [TokenStream σ]

/-- A program, with readers nested at most `depth` levels deep. -/
def program (depth : Nat) : Reading σ Scope := do
  rewind
  let root ← scope depth
  let next ← peek 0
  if next.kind = .endOfText then return root else throw (.trailing next)

/-- A depth that is enough for a source with at most `bound` tokens before its end. -/
def depthFor (bound : Nat) : Nat := 8 * (bound + 2)

end Grammar

/-- The program that a source gives, and the state in which the reading leaves it. -/
def Lookahead.parse {σ : Type} [TokenStream σ] (s : Lookahead σ) : Except Fault Scope × Lookahead σ :=
  match Grammar.program (Grammar.depthFor (TokenStream.bound s.source)) s with
  | .ok root s' => (.ok root, s')
  | .error fault s' => (.error fault, s')

/-- The program that a source gives from its start. -/
def parseSource {σ : Type} [TokenStream σ] (source : σ) : Except Fault Scope := (Lookahead.ofSource source).parse.1

/-- The program that a text writes. -/
def parse (text : String) : Except Fault Scope := parseSource (Lexer.ofText text)

end ScriptLang
