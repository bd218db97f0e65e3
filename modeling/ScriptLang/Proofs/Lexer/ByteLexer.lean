/-
  ScriptLang.Proofs.Lexer.ByteLexer — the lexer over the bytes of a text.

  A `ByteLexer` has the whole text and two byte offsets: `start`, where the latest lexeme starts,
  and `place`, which is moved byte by byte, forward by `advance` and the loops over it, and set
  outright after a comment, where no date was found and after an unexpected character. Every
  operation is none where a byte is asked for past the end, or a slice is taken off a boundary.
  It lexes what `Lexer` lexes, with the same tables.
  - `skipWhile_eq` / `skipString_eq`: the two loops by what they skip.
  - `scanToken_blank`: a lexeme that gives no token moves the place, so `next` ends.
-/

import ScriptLang.Proofs.Lexer.Calls
import ScriptLang.Proofs.Text.Bytes

namespace ScriptLang

open Utf8 (bytes charOf slice? encode)
open Token (Kind)

structure ByteLexer where
  source : String
  /-- Where the latest lexeme starts. -/
  start : Nat
  /-- The first byte not yet read. -/
  place : Nat
  line : Nat
  /-- The kind of the lexeme just read, until its token is given. -/
  pending : Option Kind
  /-- Where the text of that token is, if it is not the whole lexeme. -/
  text : Option (Nat × Nat)
  /-- The iterator has given an end token or a fault. -/
  finished : Bool

namespace ByteLexer

def ofText (source : String) : ByteLexer := ⟨source, 0, 0, 1, none, none, false⟩

def rewind (b : ByteLexer) : ByteLexer :=
  { b with start := 0, place := 0, line := 1, pending := none, text := none, finished := false }

/-! ## Bytes -/

/-- The bytes not yet read. -/
def ahead (b : ByteLexer) : List UInt8 := (bytes b.source).drop b.place

def atEnd (b : ByteLexer) : Bool := (bytes b.source).length ≤ b.place

/-- The current byte, and the lexer past it. -/
def advance (b : ByteLexer) : Option (UInt8 × ByteLexer) := do
  let byte ← (bytes b.source)[b.place]?
  return (byte, { b with place := b.place + 1 })

/-- The current byte, 0 past the end. -/
def peek (b : ByteLexer) : UInt8 := (bytes b.source)[b.place]?.getD 0

def peekNext (b : ByteLexer) : UInt8 := (bytes b.source)[b.place + 1]?.getD 0

/-- Whether the current byte is a character of the class. -/
def sees (b : ByteLexer) (p : Char → Bool) : Bool := p (charOf b.peek)

/-- Takes the current byte if it is `expected`. -/
def takeIf (b : ByteLexer) (expected : Char) : Option (Bool × ByteLexer) :=
  if !b.atEnd && b.sees (· == expected) then do
    let (_, b) ← b.advance
    return (true, b)
  else return (false, b)

theorem advance_some {b b' : ByteLexer} {byte : UInt8} (h : b.advance = some (byte, b')) :
    b.place < (bytes b.source).length ∧ b' = { b with place := b.place + 1 } := by
  simp only [advance, Option.bind_eq_bind, Option.bind_eq_some_iff, Option.pure_def, Option.some.injEq, Prod.mk.injEq] at h
  obtain ⟨byte, hb, rfl, rfl⟩ := h
  exact ⟨(List.getElem?_eq_some_iff.mp hb).1, rfl⟩

def skipWhile (p : Char → Bool) (b : ByteLexer) : Option ByteLexer :=
  if b.sees p then
    match _h : b.advance with
    | none => none
    | some (_, b') => b'.skipWhile p
  else some b
termination_by (bytes b.source).length - b.place
decreasing_by
  obtain ⟨hlt, rfl⟩ := advance_some _h
  exact Nat.sub_lt_sub_left hlt (Nat.lt_succ_self _)

/-- Skips what lies before the closing quote, and counts the lines in it. -/
def skipString (quote : UInt8) (b : ByteLexer) : Option ByteLexer :=
  if b.atEnd || b.peek == quote then some b
  else
    match _h : b.advance with
    | none => none
    | some (byte, b') => (if byte = '\n'.toUInt8 then { b' with line := b'.line + 1 } else b').skipString quote
termination_by (bytes b.source).length - b.place
decreasing_by
  obtain ⟨hlt, rfl⟩ := advance_some _h
  split <;> exact Nat.sub_lt_sub_left hlt (Nat.lt_succ_self _)

/-! ## Lexemes -/

def scanComment (b : ByteLexer) : Option (Kind × ByteLexer) :=
  if b.place ≤ (bytes b.source).length then
    match b.ahead.findIdx? (· == '\n'.toUInt8) with
    | some n => some (.comment, { b with place := b.place + n })
    | none => some (.comment, { b with place := (bytes b.source).length })
  else none

/-- The string that the byte before the place opens. -/
def scanString (quote : UInt8) (b : ByteLexer) : Option (Except LexicalFault Unit × ByteLexer) := do
  let b' ← b.skipString quote
  if b'.atEnd then return (.error ⟨.unterminatedString, b.line⟩, b')
  let (_, b') ← b'.advance
  return (.ok (), { b' with text := some (b'.start + 1, b'.place - 1), pending := some .string })

/-- Whether a slash and a run of exactly `width` digits come next. -/
def slashGroup (width : Nat) (b : ByteLexer) : Option (Bool × ByteLexer) :=
  if b.sees (· == '/') then do
    let (_, b) ← b.advance
    let b' ← b.skipWhile Char.isDigit
    return (b'.place - b.place == width, b')
  else some (false, b)

/-- Takes the month and the year of a date, or goes back. -/
def scanDateTail (b : ByteLexer) : Option (Bool × ByteLexer) := do
  let (month, b₁) ← b.slashGroup 2
  if !month then return (false, { b₁ with place := b.place })
  let (year, b₂) ← b₁.slashGroup 4
  if !year then return (false, { b₂ with place := b.place })
  return (true, b₂)

/-- Takes a point and the digits after it, if there are any. -/
def scanFraction (b : ByteLexer) : Option ByteLexer :=
  if b.sees (· == '.') && Char.isDigit (charOf b.peekNext) then do
    let (_, b) ← b.advance
    b.skipWhile Char.isDigit
  else some b

def scanNumber (b : ByteLexer) : Option (Kind × ByteLexer) := do
  let b ← b.skipWhile Char.isDigit
  let (isDate, b) ← if b.place - b.start = 2 then b.scanDateTail else some (false, b)
  if isDate then return (.date, b)
  let b ← b.scanFraction
  return (.number, b)

def keywords : List (List UInt8 × Kind) := Lexeme.keywords.map fun (word, kind) => (encode word, kind)

def scanWord (b : ByteLexer) : Option (Kind × ByteLexer) := do
  let b ← b.skipWhile Lexeme.continuesName
  if b.start ≤ b.place ∧ b.place ≤ (bytes b.source).length then
    return ((keywords.lookup (((bytes b.source).take b.place).drop b.start)).getD .name, b)
  else none

/-- The kind of the lexeme that the byte `c` starts; none if nothing starts with it. -/
def scanKind (c : Char) (b : ByteLexer) : Option (Option Kind × ByteLexer) :=
  match Lexeme.mark? c with
  | some kind => some (some kind, if c = '\n' then { b with line := b.line + 1 } else b)
  | none =>
    match Lexeme.pair? c with
    | some p => (b.takeIf p.second).map fun (taken, b) => (if taken then some p.together else p.alone, b)
    | none =>
      if c = '#' then b.scanComment.map fun (kind, b) => (some kind, b)
      else if c.isDigit then b.scanNumber.map fun (kind, b) => (some kind, b)
      else if Lexeme.startsName c then b.scanWord.map fun (kind, b) => (some kind, b)
      else some (none, b)

/-- Takes the whole character at the start of the lexeme. -/
def unexpected (b : ByteLexer) : Option (Except LexicalFault Unit × ByteLexer) := do
  let rest ← slice? b.source b.start (bytes b.source).length
  let c := rest.toList.head?.getD '?'
  return (.error ⟨.unexpectedCharacter c, b.line⟩, { b with place := b.start + c.utf8Size })

/-- Reads one lexeme, or one blank, which leaves no kind. -/
def scanToken (b : ByteLexer) : Option (Except LexicalFault Unit × ByteLexer) := do
  let (byte, b) ← b.advance
  if Lexeme.isBlank (charOf byte) then return (.ok (), b)
  if Lexeme.isQuote (charOf byte) then b.scanString byte
  else
    match ← b.scanKind (charOf byte) with
    | (some kind, b) => return (.ok (), { b with pending := some kind })
    | (none, b) => b.unexpected

/-- A lexeme starts at the place. -/
def mark (b : ByteLexer) : ByteLexer := { b with start := b.place, pending := none, text := none }

theorem scanString_pending {b b' : ByteLexer} {quote : UInt8} (h : b.scanString quote = some (.ok (), b')) :
    b'.pending = some .string := by
  simp only [scanString, Option.bind_eq_bind, Option.bind_eq_some_iff] at h
  obtain ⟨b₁, -, h⟩ := h
  split at h
  · cases h
  · obtain ⟨_, -, h⟩ := Option.bind_eq_some_iff.mp h
    cases h
    rfl

theorem unexpected_ne_ok {b b' : ByteLexer} : b.unexpected ≠ some (.ok (), b') := by
  intro h
  simp only [unexpected, Option.bind_eq_bind, Option.bind_eq_some_iff] at h
  obtain ⟨_, -, h⟩ := h
  cases h

/-- Only a blank leaves no kind, and a blank is one byte. -/
theorem scanToken_blank {b b' : ByteLexer} (h : b.scanToken = some (.ok (), b')) (hp : b'.pending = none) :
    b.place < (bytes b.source).length ∧ b' = { b with place := b.place + 1 } := by
  simp only [scanToken, Option.bind_eq_bind, Option.bind_eq_some_iff] at h
  obtain ⟨⟨byte, b₁⟩, ha, h⟩ := h
  obtain ⟨hlt, rfl⟩ := advance_some ha
  simp only at h
  split at h
  · cases h
    exact ⟨hlt, rfl⟩
  split at h
  · rw [scanString_pending h] at hp
    cases hp
  · obtain ⟨⟨kind, b₂⟩, -, h⟩ := Option.bind_eq_some_iff.mp h
    cases kind with
    | some kind => cases h; cases hp
    | none => exact absurd h unexpected_ne_ok

/-- The token of the lexeme just read. -/
def emit (kind : Kind) (b : ByteLexer) : Option (Except LexicalFault Token × ByteLexer) := do
  let (i, j) := b.text.getD (b.start, b.place)
  let text ← slice? b.source i j
  return (.ok ⟨kind, text⟩, { b with pending := none, text := none })

def next (b : ByteLexer) : Option (Except LexicalFault Token × ByteLexer) :=
  if b.atEnd then some (.ok Token.endOfText, b)
  else
    match _h : b.mark.scanToken with
    | none => none
    | some (.error fault, b') => some (.error fault, b')
    | some (.ok (), b') =>
      match _hp : b'.pending with
      | some kind => b'.emit kind
      | none => b'.next
termination_by (bytes b.source).length - b.place
decreasing_by
  obtain ⟨hlt, rfl⟩ := scanToken_blank _h _hp
  exact Nat.sub_lt_sub_left hlt (Nat.lt_succ_self _)

/-- What `next` makes of a lexeme or a blank. -/
theorem next_of_scanToken {b b' : ByteLexer} {result : Except LexicalFault Unit} (hend : b.atEnd = false)
    (h : b.mark.scanToken = some (result, b')) : b.next =
      match result, b'.pending with
      | .error fault, _ => some (.error fault, b')
      | .ok (), some kind => b'.emit kind
      | .ok (), none => b'.next := by
  rw [next, if_neg (by simp [hend])]
  split
  · rename_i hn
    rw [h] at hn
    cases hn
  · rename_i hf
    rw [h] at hf
    cases hf
    rfl
  · rename_i hk
    rw [h] at hk
    cases hk
    split <;> rename_i hp <;> rw [hp]

/-- The iterator's next result. -/
def step (b : ByteLexer) : Option (Option (Except LexicalFault Token) × ByteLexer) :=
  if b.finished then some (none, b)
  else do
    let (result, b') ← b.next
    return (some result, if Lexer.isFinal result then { b' with finished := true } else b')

def answer (b : ByteLexer) : Lexer.Call → Option (Option (Except LexicalFault Token) × ByteLexer)
  | .next => b.next.map fun (result, b) => (some result, b)
  | .step => b.step
  | .rewind => some (none, b.rewind)

/-- The results of calls, one after another, and the lexer after them. -/
def run (b : ByteLexer) : List Lexer.Call → Option (List (Option (Except LexicalFault Token)) × ByteLexer)
  | [] => some ([], b)
  | c :: calls => do
    let (a, b) ← b.answer c
    let (as, b) ← b.run calls
    return (a :: as, b)

/-! ## The loops -/

variable {b : ByteLexer} {byte : UInt8} {rest : List UInt8}

theorem ahead_getElem? (b : ByteLexer) (i : Nat) : (bytes b.source)[b.place + i]? = b.ahead[i]? :=
  List.getElem?_drop.symm

theorem peek_eq (b : ByteLexer) : b.peek = b.ahead.head?.getD 0 := by
  rw [List.head?_eq_getElem?, ← ahead_getElem?]
  rfl

theorem peekNext_eq (b : ByteLexer) : b.peekNext = b.ahead[1]?.getD 0 := by
  rw [← ahead_getElem?]
  rfl

theorem atEnd_eq (b : ByteLexer) : b.atEnd = b.ahead.isEmpty := by
  rw [Bool.eq_iff_iff, List.isEmpty_iff, ahead, List.drop_eq_nil_iff]
  exact decide_eq_true_iff

theorem advance_eq (h : b.ahead = byte :: rest) : b.advance = some (byte, { b with place := b.place + 1 }) := by
  have hb : (bytes b.source)[b.place]? = some byte := (b.ahead_getElem? 0).trans (by rw [h]; rfl)
  rw [advance, hb]
  rfl

/-- The lexer past these bytes, with their lines counted. -/
def across (b : ByteLexer) (us : List UInt8) : ByteLexer :=
  { b with place := b.place + us.length, line := b.line + us.count '\n'.toUInt8 }

@[simp] theorem across_source (b : ByteLexer) (us : List UInt8) : (b.across us).source = b.source := rfl

@[simp] theorem across_nil (b : ByteLexer) : b.across [] = b := rfl

@[simp] theorem across_across (b : ByteLexer) (us vs : List UInt8) : (b.across us).across vs = b.across (us ++ vs) := by
  simp only [across, List.length_append, List.count_append, Nat.add_assoc]

theorem across_of_not_mem {us : List UInt8} (hn : '\n'.toUInt8 ∉ us) :
    b.across us = { b with place := b.place + us.length } := by
  rw [across, List.count_eq_zero.mpr hn, Nat.add_zero]

theorem across_one (hb : byte ≠ '\n'.toUInt8) : b.across [byte] = { b with place := b.place + 1 } :=
  across_of_not_mem fun h => hb (List.mem_singleton.mp h).symm

theorem ahead_across {us : List UInt8} (h : b.ahead = us ++ rest) : (b.across us).ahead = rest := by
  show (bytes b.source).drop (b.place + us.length) = rest
  rw [← List.drop_drop, ← ahead, h, List.drop_left]

theorem skipWhile_cons {p : Char → Bool} (h : b.ahead = byte :: rest) (hn : byte ≠ '\n'.toUInt8)
    (hp : p (charOf byte) = true) : b.skipWhile p = (b.across [byte]).skipWhile p := by
  have hsees : b.sees p = true := by rw [sees, peek_eq, h]; exact hp
  rw [skipWhile, if_pos hsees, across_one hn]
  split
  · rename_i ha
    rw [advance_eq h] at ha
    cases ha
  · rename_i ha
    rw [advance_eq h] at ha
    cases ha
    rfl

/-- A class that has neither the line feed nor what a place past the end reads as. -/
theorem skipWhile_eq {p : Char → Bool} (h0 : p (charOf 0) = false) (hn : p '\n' = false) (b : ByteLexer) :
    b.skipWhile p = some (b.across (b.ahead.takeWhile (p ∘ charOf))) := by
  induction h : b.ahead generalizing b with
  | nil =>
    rw [skipWhile, if_neg (by rw [sees, peek_eq, h]; simpa using h0)]
    rfl
  | cons byte rest ih =>
    cases hp : (p ∘ charOf) byte with
    | true =>
      have hb : byte ≠ '\n'.toUInt8 := by
        rintro rfl
        exact absurd (hp.symm.trans hn) (by decide)
      rw [skipWhile_cons h hb hp, ih _ (ahead_across h), across_across, List.takeWhile_cons_of_pos hp, List.singleton_append]
    | false =>
      rw [skipWhile, if_neg (by rw [sees, peek_eq, h]; exact Bool.eq_false_iff.mp hp),
        List.takeWhile_cons_of_neg (Bool.eq_false_iff.mp hp), across_nil]

theorem skipString_cons {quote : UInt8} (h : b.ahead = byte :: rest) (hq : byte ≠ quote) :
    b.skipString quote = (b.across [byte]).skipString quote := by
  have hend : (b.atEnd || b.peek == quote) = false := by rw [atEnd_eq, peek_eq, h]; simpa using hq
  rw [skipString, if_neg (by simp [hend])]
  split
  · rename_i ha
    rw [advance_eq h] at ha
    cases ha
  · rename_i ha
    rw [advance_eq h] at ha
    cases ha
    by_cases hn : byte = '\n'.toUInt8
    · rw [if_pos hn, hn]
      rfl
    · rw [if_neg hn, across_one hn]

theorem skipString_eq (quote : UInt8) (b : ByteLexer) :
    b.skipString quote = some (b.across (b.ahead.takeWhile (· != quote))) := by
  induction h : b.ahead generalizing b with
  | nil =>
    rw [skipString, if_pos (by rw [atEnd_eq, h]; rfl)]
    rfl
  | cons byte rest ih =>
    by_cases hq : byte = quote
    · rw [skipString, if_pos (by rw [peek_eq, h]; simp [hq]), List.takeWhile_cons_of_neg (by simp [hq]), across_nil]
    · rw [skipString_cons h hq, ih _ (ahead_across h), across_across, List.takeWhile_cons_of_pos (by simp [hq]),
        List.singleton_append]

/-- The place of the first such byte, or that past them all. -/
theorem findIdx?_eq (us : List UInt8) : (us.findIdx? (· == byte)).getD us.length = (us.takeWhile (· != byte)).length := by
  induction us with
  | nil => rfl
  | cons u us ih =>
    rw [List.findIdx?_cons]
    by_cases hu : u = byte
    · rw [if_pos (by simp [hu]), List.takeWhile_cons_of_neg (by simp [hu])]
      rfl
    · rw [if_neg (by simp [hu]), List.takeWhile_cons_of_pos (by simp [hu]), List.length_cons, List.length_cons, ← ih]
      cases us.findIdx? (· == byte) <;> rfl

theorem length_ahead (h : b.place ≤ (bytes b.source).length) : b.place + b.ahead.length = (bytes b.source).length := by
  rw [ahead, List.length_drop]
  omega

theorem scanComment_eq (h : b.place ≤ (bytes b.source).length) :
    b.scanComment = some (.comment, b.across (b.ahead.takeWhile (· != '\n'.toUInt8))) := by
  rw [across_of_not_mem (Lexeme.not_mem_takeWhile _ _), ← findIdx?_eq, scanComment, if_pos h]
  cases b.ahead.findIdx? (· == '\n'.toUInt8) with
  | some n => rfl
  | none => rw [← length_ahead h]; rfl

end ByteLexer

end ScriptLang
