/-
  ScriptLang.Lexer.Lexeme — the lexeme at the front of a text.

  `scan c cs` takes the longest lexeme of the text `c :: cs`, where `c` is no blank:
  - a mark or a pair of marks (`!=`, `&&`); one `&` or `|` alone is no token;
  - a comment, from `#` up to the line break, which stays;
  - a string, from a quote to the next quote of the same sort, whatever lies between;
  - a number, digits with an optional fraction, or a date: two digits, a slash, two
    digits, a slash and four digits, where each run of digits is as long as it can be;
  - a word of ASCII letters, digits and underscores, either a keyword or a name.
  Any other character is a lexeme of its own, with a fault for an outcome.
  - `taken_append_rest`: the lexeme and the rest make up the text.
  - `taken_ne_nil` / `rest_length_lt`: at least one character is taken.
-/

import ScriptLang.Fault

namespace ScriptLang

open Token (Kind)

structure Lexeme where
  /-- Every character of the lexeme, a string's quotes included. -/
  taken : List Char
  /-- The text after the lexeme. -/
  rest : List Char
  outcome : Except LexicalCause Token

namespace Lexeme

/-! ## Characters and words -/

/-- A character that separates lexemes and belongs to none. -/
def isBlank (c : Char) : Bool := c == ' ' || c == '\t' || c == '\r'

def isQuote (c : Char) : Bool := c == '"' || c == '\''

def startsName (c : Char) : Bool := c.isAlpha || c == '_'

def continuesName (c : Char) : Bool := c.isAlphanum || c == '_'

def keywords : List (List Char × Kind) :=
  [("let".toList, .letWord), ("if".toList, .ifWord), ("else".toList, .elseWord), ("while".toList, .whileWord),
   ("def".toList, .defWord), ("return".toList, .returnWord), ("empty".toList, .emptyWord), ("true".toList, .trueWord),
   ("false".toList, .falseWord), ("and".toList, .and), ("or".toList, .or), ("not".toList, .not)]

/-- The kind of a whole word. -/
def wordKind (word : List Char) : Kind := (keywords.lookup word).getD .name

/-- A character that is a token wherever it starts a lexeme. -/
def mark? : Char → Option Kind
  | '(' => some .openParen
  | ')' => some .closeParen
  | '[' => some .openBracket
  | ']' => some .closeBracket
  | '{' => some .openBrace
  | '}' => some .closeBrace
  | ',' => some .comma
  | ';' => some .semicolon
  | '+' => some .plus
  | '-' => some .minus
  | '*' => some .star
  | '/' => some .slash
  | '%' => some .percent
  | '^' => some .caret
  | '~' => some .tilde
  | '\n' => some .newline
  | _ => none

/-- What a character means alone, if anything, and what it means before `second`. -/
structure Pair where
  alone : Option Kind
  second : Char
  together : Kind

def pair? : Char → Option Pair
  | '!' => some ⟨some .bang, '=', .notEqual⟩
  | '=' => some ⟨some .assign, '=', .equal⟩
  | '<' => some ⟨some .less, '=', .lessEqual⟩
  | '>' => some ⟨some .greater, '=', .greaterEqual⟩
  | '&' => some ⟨none, '&', .and⟩
  | '|' => some ⟨none, '|', .or⟩
  | _ => none

/-! ## Lexemes by kind -/

/-- A lexeme that is the text of its token. -/
def ofToken (kind : Kind) (taken rest : List Char) : Lexeme := ⟨taken, rest, .ok ⟨kind, String.ofList taken⟩⟩

def unexpected (c : Char) (rest : List Char) : Lexeme := ⟨[c], rest, .error (.unexpectedCharacter c)⟩

def scanPair (p : Pair) (c : Char) (rest : List Char) : Lexeme :=
  match rest with
  | d :: rest' =>
    if d = p.second then ofToken p.together [c, d] rest'
    else match p.alone with
      | some kind => ofToken kind [c] rest
      | none => unexpected c rest
  | [] =>
    match p.alone with
    | some kind => ofToken kind [c] []
    | none => unexpected c []

def scanComment (c : Char) (rest : List Char) : Lexeme :=
  ofToken .comment (c :: rest.takeWhile (· != '\n')) (rest.dropWhile (· != '\n'))

/-- The string that `quote` opens in front of `rest`. -/
def scanString (quote : Char) (rest : List Char) : Lexeme :=
  let body := rest.takeWhile (· != quote)
  match rest.dropWhile (· != quote) with
  | closing :: rest' => ⟨quote :: (body ++ [closing]), rest', .ok ⟨.string, String.ofList body⟩⟩
  | [] => ⟨quote :: body, [], .error .unterminatedString⟩

/-- A slash and a run of exactly `width` digits. -/
def slashGroup? (width : Nat) : List Char → Option (List Char × List Char)
  | '/' :: rest =>
    let digits := rest.takeWhile Char.isDigit
    if digits.length = width then some ('/' :: digits, rest.dropWhile Char.isDigit) else none
  | _ => none

/-- The month and year that make a date of a two-digit number. -/
def dateTail? (rest : List Char) : Option (List Char × List Char) := do
  let (month, rest) ← slashGroup? 2 rest
  let (year, rest) ← slashGroup? 4 rest
  some (month ++ year, rest)

/-- A point and the digits after it; nothing when no digit follows the point. -/
def fraction : List Char → List Char × List Char
  | '.' :: d :: rest =>
    if d.isDigit then ('.' :: d :: rest.takeWhile Char.isDigit, rest.dropWhile Char.isDigit) else ([], '.' :: d :: rest)
  | rest => ([], rest)

def scanNumber (c : Char) (rest : List Char) : Lexeme :=
  let whole := c :: rest.takeWhile Char.isDigit
  let after := rest.dropWhile Char.isDigit
  match if whole.length = 2 then dateTail? after else none with
  | some (tail, rest') => ofToken .date (whole ++ tail) rest'
  | none => ofToken .number (whole ++ (fraction after).1) (fraction after).2

def scanWord (c : Char) (rest : List Char) : Lexeme :=
  let word := c :: rest.takeWhile continuesName
  ofToken (wordKind word) word (rest.dropWhile continuesName)

/-- The lexeme that starts with `c`, when `rest` follows it. -/
def scan (c : Char) (rest : List Char) : Lexeme :=
  match mark? c with
  | some kind => ofToken kind [c] rest
  | none =>
    match pair? c with
    | some p => scanPair p c rest
    | none =>
      if c = '#' then scanComment c rest
      else if isQuote c then scanString c rest
      else if c.isDigit then scanNumber c rest
      else if startsName c then scanWord c rest
      else unexpected c rest

/-! ## Nothing is lost -/

theorem slashGroup?_append {width : Nat} {cs group rest : List Char} (h : slashGroup? width cs = some (group, rest)) :
    group ++ rest = cs := by
  unfold slashGroup? at h
  split at h
  · simp only at h
    split at h
    · cases h; simp
    · cases h
  · cases h

theorem dateTail?_append {cs tail rest : List Char} (h : dateTail? cs = some (tail, rest)) : tail ++ rest = cs := by
  simp only [dateTail?, Option.bind_eq_bind, Option.bind_eq_some_iff, Prod.exists, Option.some.injEq,
    Prod.mk.injEq] at h
  obtain ⟨month, r, hm, year, r', hy, rfl, rfl⟩ := h
  rw [List.append_assoc, slashGroup?_append hy, slashGroup?_append hm]

theorem fraction_append (cs : List Char) : (fraction cs).1 ++ (fraction cs).2 = cs := by
  unfold fraction
  split
  · split <;> simp
  · simp

theorem scanPair_append (p : Pair) (c : Char) (cs : List Char) :
    (scanPair p c cs).taken ++ (scanPair p c cs).rest = c :: cs := by
  unfold scanPair
  split
  · split
    · rfl
    · split <;> rfl
  · split <;> rfl

theorem scanString_append (c : Char) (cs : List Char) :
    (scanString c cs).taken ++ (scanString c cs).rest = c :: cs := by
  have h := List.takeWhile_append_dropWhile (p := (· != c)) (l := cs)
  unfold scanString
  simp only
  split
  · rename_i closing rest' hd
    rw [hd] at h
    simpa using h
  · rename_i hd
    rw [hd] at h
    simpa using h

theorem scanNumber_append (c : Char) (cs : List Char) :
    (scanNumber c cs).taken ++ (scanNumber c cs).rest = c :: cs := by
  have h := List.takeWhile_append_dropWhile (p := Char.isDigit) (l := cs)
  unfold scanNumber
  simp only
  split
  · rename_i tail rest' hd
    split at hd
    · simp only [ofToken, List.cons_append, List.append_assoc, dateTail?_append hd, h]
    · cases hd
  · simp only [ofToken, List.cons_append, List.append_assoc, fraction_append, h]

theorem taken_append_rest (c : Char) (cs : List Char) : (scan c cs).taken ++ (scan c cs).rest = c :: cs := by
  unfold scan
  split
  · rfl
  · split
    · exact scanPair_append ..
    · split
      · simp [scanComment, ofToken]
      · split
        · exact scanString_append ..
        · split
          · exact scanNumber_append ..
          · split
            · simp [scanWord, ofToken]
            · rfl

theorem scanNumber_taken_ne_nil (c : Char) (cs : List Char) : (scanNumber c cs).taken ≠ [] := by
  unfold scanNumber
  simp only
  split <;> simp [ofToken]

theorem taken_ne_nil (c : Char) (cs : List Char) : (scan c cs).taken ≠ [] := by
  have word : (scanWord c cs).taken ≠ [] := by simp [scanWord, ofToken]
  have number := scanNumber_taken_ne_nil c cs
  unfold scan scanPair scanComment scanString unexpected
  repeat' split
  all_goals simp_all [ofToken]

theorem rest_length_lt (c : Char) (cs : List Char) : (scan c cs).rest.length < (c :: cs).length := by
  rw [← taken_append_rest c cs, List.length_append]
  have := List.length_pos_iff.mpr (taken_ne_nil c cs)
  omega

end Lexeme

end ScriptLang
