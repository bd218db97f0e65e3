/-
  ScriptLang.Lexer.Basic — a lexer that gives one token at a time.

  `next` skips blanks and takes one lexeme; a fault takes its lexeme too, so reading can go
  on after it. At the end of the text `next` gives the end token for ever. `step` is the
  iterator over `next`: it is over once it has given an end token or a fault, until a
  `rewind`. Lines count from 1; a fault carries the line on which its lexeme starts.
  - `next_rest_length_lt`: anything but an end token shortens the text that is left.
-/

import ScriptLang.Lexer.Lexeme

namespace ScriptLang

structure Lexer where
  source : List Char
  /-- The text from the start of the latest lexeme on. -/
  lexeme : List Char
  /-- The text not yet read. -/
  rest : List Char
  /-- The line on which `rest` starts. -/
  line : Nat
  /-- The iterator has given an end token or a fault. -/
  finished : Bool

namespace Lexer

def ofChars (source : List Char) : Lexer := ⟨source, source, source, 1, false⟩

def ofText (source : String) : Lexer := ofChars source.toList

/-- A lexer over text given as bytes. -/
def ofBytes (bytes : List UInt8) : Except Utf8.Fault Lexer := (Utf8.decode bytes).map ofChars

/-- Back to the start of the text. -/
def rewind (l : Lexer) : Lexer := ofChars l.source

/-- The next token, or the fault of the next lexeme. -/
def next (l : Lexer) : Except LexicalFault Token × Lexer :=
  match l.rest.dropWhile Lexeme.isBlank with
  | [] => (.ok Token.endOfText, { l with rest := [] })
  | c :: cs =>
    let found := Lexeme.scan c cs
    (found.outcome.mapError fun cause => ⟨cause, l.line⟩,
      { l with lexeme := c :: cs, rest := found.rest, line := l.line + found.taken.count '\n' })

/-- Whether an iteration is over after this result. -/
def isFinal : Except LexicalFault Token → Bool
  | .ok t => t.kind == .endOfText
  | .error _ => true

/-- The iterator's next result, or none once it is over. -/
def step (l : Lexer) : Option (Except LexicalFault Token) × Lexer :=
  if l.finished then (none, l)
  else
    let (result, l') := l.next
    (some result, { l' with finished := isFinal result })

/-! ## Progress -/

/-- What is left after a token that is no end token is shorter, and so it is after a fault. -/
theorem next_rest_length_lt {l : Lexer} (h : l.next.1 ≠ .ok Token.endOfText) :
    l.next.2.rest.length < l.rest.length := by
  have hd : (l.rest.dropWhile Lexeme.isBlank).length ≤ l.rest.length := (List.dropWhile_sublist _).length_le
  unfold next at h ⊢
  split
  · rename_i hn
    simp [hn] at h
  · rename_i c cs hc
    rw [hc] at hd
    exact Nat.lt_of_lt_of_le (Lexeme.rest_length_lt c cs) hd

/-- A result that is not final is a token that is no end token. -/
theorem ne_endOfText_of_not_final {r : Except LexicalFault Token} (h : isFinal r = false) : r ≠ .ok Token.endOfText := by
  intro he
  subst he
  simp [isFinal, Token.endOfText] at h

/-- Every result up to and with the first final one, each with the line reached after it. -/
def items (l : Lexer) : List (Except LexicalFault Token × Nat) :=
  match _found : l.next with
  | (result, after) => if isFinal result then [(result, after.line)] else (result, after.line) :: items after
termination_by l.rest.length
decreasing_by
  have shorter := next_rest_length_lt (l := l)
  rw [_found] at shorter
  exact shorter (ne_endOfText_of_not_final (Bool.eq_false_iff.mpr ‹_›))

end Lexer

end ScriptLang
