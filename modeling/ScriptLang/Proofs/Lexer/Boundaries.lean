/-
  ScriptLang.Proofs.Lexer.Boundaries — where a lexer of bytes can be.

  `Mirrors text read l b`: the lexer `l` and the byte lexer `b` have both read `read` of the text.
  - `Mirrors.next` / `Mirrors.answer`: they give the same result and mirror each other again; a
    fault is where `FaultAt` says.
  - `run_sound`: so it is after any calls. No byte past the end is asked for and no slice is taken
    off a boundary; `start` and `place` are boundaries, and the line counts the line feeds.
-/

import ScriptLang.Proofs.Lexer.Bytewise

namespace ScriptLang.ByteLexer

open Utf8
open Lexeme (isBlank isQuote ofToken)
open Token (Kind)

variable {b b' : ByteLexer} {text read rest : List Char} {c : Char} {cs : List Char} {l : Lexer}

/-! ## One token -/

/-- The lexer has read `read` and not yet `rest`. -/
structure Stands (read rest : List Char) (b : ByteLexer) : Prop where
  source : b.source = String.ofList (read ++ rest)
  place : b.place = (encode read).length

namespace Stands

theorem mark (h : Stands read rest b) : At read [] rest b.mark where
  source := by rw [List.append_nil]; exact h.source
  start := h.place
  place := by rw [List.append_nil]; exact h.place

theorem next_end (h : Stands read [] b) : b.next = some (.ok Token.endOfText, b) := by
  have hend : b.atEnd = true := h.mark.atEnd
  rw [ByteLexer.next, if_pos hend]

/-- The token whose kind is known has the lexeme as its text, or the part of it that was noted. -/
theorem emit_eq {k : Kind} {u v w : List Char} (hs : b.source = String.ofList (u ++ v ++ w))
    (ht : b.text.getD (b.start, b.place) = ((encode u).length, (encode (u ++ v)).length)) :
    b.emit k = some (.ok ⟨k, String.ofList v⟩, { b with pending := none, text := none }) := by
  have hslice : slice? b.source (encode u).length (encode (u ++ v)).length = some (String.ofList v) := by
    rw [hs, slice?_append]
  rw [emit, ht]
  simp only [hslice, Option.bind_eq_bind, Option.bind_some]
  rfl

theorem next_lexeme (h : Stands read (c :: cs) b) (hb : isBlank c = false) :
    b.next = some ((Lexeme.scan c cs).outcome.mapError fun cause => ⟨cause, b.line⟩,
      b.mark.past (Lexeme.scan c cs).taken) := by
  have hend : b.atEnd = false := h.mark.atEnd
  cases h.mark.scanToken hb with
  | fault cause hscan htoken =>
    rw [next_of_scanToken hend htoken, hscan]
    rfl
  | token k u v hcs hscan htoken =>
    subst hcs
    have hpast : At read (c :: u) v (b.mark.past (c :: u)) := At.past (u := c :: u) h.mark
    rw [next_of_scanToken hend htoken, hscan]
    refine (emit_eq (u := read) (v := c :: u) (w := v) hpast.source ?_).trans rfl
    exact Prod.ext hpast.start hpast.place
  | string u v hcs hscan htoken =>
    rw [next_of_scanToken hend htoken, hscan]
    refine (emit_eq (u := read ++ [c]) (v := u) (w := c :: v) ?_ ?_).trans rfl
    · show b.source = _
      rw [h.source, hcs]
      simp
    · refine Prod.ext ?_ ?_
      · show b.place + _ = _
        rw [h.place]
        simp
      · show b.place + _ = _
        rw [h.place]
        simp

theorem next_blank (h : Stands read (c :: cs) b) (hb : isBlank c = true) : b.next = (b.mark.past [c]).next := by
  have hend : b.atEnd = false := h.mark.atEnd
  obtain ⟨hc, hn⟩ : c.toNat < 128 ∧ c ≠ '\n' := by
    simp only [isBlank, Bool.or_eq_true, beq_iff_eq] at hb
    rcases hb with (rfl | rfl) | rfl <;> decide
  have htoken : b.mark.scanToken = some (.ok (), b.mark.past [c]) := by
    rw [ByteLexer.scanToken, h.mark.advance hc hn]
    simp only [Option.bind_eq_bind, Option.bind_some, charOf_toUInt8 hc, hb, if_true]
    rfl
  rw [next_of_scanToken hend htoken]
  rfl

end Stands

/-! ## The two lexers -/

/-- Both lexers have read `read` of the text, and the latest lexeme starts within that. -/
structure Mirrors (text read : List Char) (l : Lexer) (b : ByteLexer) : Prop where
  reached : Lexer.Reached text read l
  source : b.source = String.ofList text
  place : b.place = (encode read).length
  start : ∃ u v, read = u ++ v ∧ b.start = (encode u).length
  line : b.line = l.line
  finished : b.finished = l.finished
  pending : b.pending = none
  text : b.text = none

/-- Where a fault is, for each cause: at the character, or at a quote that the rest of the text
    does not close. It has the line on which that is. -/
def FaultAt (text : List Char) (b : ByteLexer) (fault : LexicalFault) : Prop :=
  match fault.cause with
  | .unexpectedCharacter c => ∃ u v, text = u ++ c :: v ∧ b.start = (encode u).length ∧
      b.place = (encode (u ++ [c])).length ∧ fault.line = 1 + u.count '\n'
  | .unterminatedString => ∃ u q v, text = u ++ q :: v ∧ isQuote q = true ∧ q ∉ v ∧ b.start = (encode u).length ∧
      b.place = (encode text).length ∧ fault.line = 1 + u.count '\n'
  | .other _ => False

theorem FaultAt.of_scan {cause : LexicalCause} (hs : b.start = (encode read).length)
    (hp : b.place = (encode (read ++ (Lexeme.scan c cs).taken)).length)
    (he : (Lexeme.scan c cs).outcome = .error cause) :
    FaultAt (read ++ c :: cs) b ⟨cause, 1 + read.count '\n'⟩ := by
  rcases Lexeme.scan_error he with ⟨-, rfl, ht⟩ | ⟨hq, rfl, hn, ht⟩
  · exact ⟨read, cs, rfl, hs, ht ▸ hp, rfl⟩
  · exact ⟨read, c, cs, rfl, hq, hn, hs, ht ▸ hp, rfl⟩

namespace Mirrors

theorem ofChars (text : List Char) : Mirrors text [] (Lexer.ofChars text) (ofText (String.ofList text)) where
  reached := .ofChars text
  source := rfl
  place := rfl
  start := ⟨[], [], rfl, rfl⟩
  line := rfl
  finished := rfl
  pending := rfl
  text := rfl

theorem stands (h : Mirrors text read l b) : Stands read l.rest b := ⟨by rw [h.source, h.reached.split], h.place⟩

theorem rewind_eq (h : Mirrors text read l b) : b.rewind = ByteLexer.ofText (String.ofList text) := by
  rw [rewind, h.source]
  rfl

/-- At a lexeme, or the end. -/
theorem next_lexeme (h : Mirrors text read l b) (hb : ∀ c ∈ l.rest.head?, isBlank c = false) :
    ∃ read' b', b.next = some (l.next.1, b') ∧ Mirrors text read' l.next.2 b' ∧
      ∀ fault, l.next.1 = .error fault → FaultAt text b' fault := by
  cases hr : l.rest with
  | nil =>
    have hn : l.next = (.ok Token.endOfText, l) := Lexer.next_of_rest_nil hr
    rw [hn]
    exact ⟨read, b, (hr ▸ h.stands).next_end, h, fun _ hf => nomatch hf⟩
  | cons c cs =>
    have hc : isBlank c = false := hb c (by rw [hr]; rfl)
    have hn : l.next = ((Lexeme.scan c cs).outcome.mapError fun cause => ⟨cause, l.line⟩, { l with
        lexeme := c :: cs, rest := (Lexeme.scan c cs).rest,
        line := l.line + (Lexeme.scan c cs).taken.count '\n' }) := by
      rw [Lexer.next, hr, List.dropWhile_cons_of_neg (by simp [hc])]
    have hreached : Lexer.Reached text (read ++ (Lexeme.scan c cs).taken) l.next.2 := by
      rw [hn]
      refine ⟨h.reached.source, ?_, ?_⟩
      · rw [List.append_assoc, Lexeme.taken_append_rest, ← hr, h.reached.split]
      · rw [h.reached.line, List.count_append, Nat.add_assoc]
    have hplace : (b.mark.past (Lexeme.scan c cs).taken).place = (encode (read ++ (Lexeme.scan c cs).taken)).length := by
      rw [past_place, encode_append, List.length_append, ← h.place]
      rfl
    have hline : (b.mark.past (Lexeme.scan c cs).taken).line = l.next.2.line := by
      rw [past_line, hn, ← h.line]
      rfl
    refine ⟨read ++ (Lexeme.scan c cs).taken, b.mark.past (Lexeme.scan c cs).taken, ?_, ?_, fun fault hf => ?_⟩
    · rw [(hr ▸ h.stands : Stands read (c :: cs) b).next_lexeme hc, h.line, hn]
    · exact ⟨hreached, h.source, hplace, ⟨read, _, rfl, h.place⟩, hline, h.finished.trans (Lexer.next_finished l).symm,
        rfl, rfl⟩
    · rw [hn] at hf
      cases ho : (Lexeme.scan c cs).outcome with
      | ok t => rw [ho] at hf; cases hf
      | error cause =>
        rw [ho] at hf
        cases hf
        rw [h.reached.line, ← h.reached.split, hr]
        exact .of_scan h.place hplace ho

theorem blank (h : Mirrors text read l b) (hr : l.rest = c :: cs) (hb : isBlank c = true) :
    Mirrors text (read ++ [c]) { l with rest := cs } (b.mark.past [c]) := by
  have hn : c ≠ '\n' := by
    rintro rfl
    cases hb
  have hcount : (read ++ [c]).count '\n' = read.count '\n' := by
    rw [List.count_append, List.count_singleton, if_neg (by simp [hn]), Nat.add_zero]
  constructor
  case reached =>
    refine ⟨h.reached.source, ?_, by rw [hcount]; exact h.reached.line⟩
    rw [← h.reached.split, hr]
    simp
  case source => exact h.source
  case place =>
    rw [past_place, encode_append, List.length_append, ← h.place]
    rfl
  case start => exact ⟨read, [c], rfl, h.place⟩
  case line => rw [At.past_one_line hn]; exact h.line
  case finished => exact h.finished
  case pending => rfl
  case text => rfl

/-- `next` gives the same for both, past any blanks. -/
theorem next (h : Mirrors text read l b) : ∃ read' b', b.next = some (l.next.1, b') ∧ Mirrors text read' l.next.2 b' ∧
    ∀ fault, l.next.1 = .error fault → FaultAt text b' fault := by
  induction hr : l.rest generalizing l b read with
  | nil => exact h.next_lexeme (by simp [hr])
  | cons c cs ih =>
    cases hb : isBlank c with
    | false => exact h.next_lexeme (by simp [hr, hb])
    | true =>
      have hnext : b.next = (b.mark.past [c]).next := (hr ▸ h.stands : Stands read (c :: cs) b).next_blank hb
      have hl : l.next = { l with rest := cs }.next := by
        simp only [Lexer.next, hr, List.dropWhile_cons_of_pos hb]
      rw [hnext, hl]
      exact ih (h.blank hr hb) rfl

theorem answer (h : Mirrors text read l b) (call : Lexer.Call) : ∃ read' b',
    b.answer call = some ((l.answer call).1, b') ∧ Mirrors text read' (l.answer call).2 b' ∧
    ∀ fault, (l.answer call).1 = some (.error fault) → FaultAt text b' fault := by
  obtain ⟨read', b', hn, hm, hf⟩ := h.next
  cases call with
  | next =>
    refine ⟨read', b', ?_, hm, fun fault he => hf fault (Option.some.inj he)⟩
    rw [ByteLexer.answer, hn]
    rfl
  | rewind =>
    refine ⟨[], b.rewind, rfl, ?_, fun _ he => nomatch he⟩
    show Mirrors text [] l.rewind b.rewind
    rw [h.rewind_eq, h.reached.rewind_eq]
    exact ofChars text
  | step =>
    show ∃ read' b', b.step = some (l.step.1, b') ∧ Mirrors text read' l.step.2 b' ∧
      ∀ fault, l.step.1 = some (.error fault) → FaultAt text b' fault
    rcases l.step_cases with ⟨hl, hs⟩ | ⟨hl, hs⟩
    · refine ⟨read, b, ?_, hs ▸ h, fun _ he => by rw [hs] at he; cases he⟩
      rw [ByteLexer.step, if_pos (h.finished.trans hl), hs]
    · have hstep : b.step = some (some l.next.1, { b' with finished := Lexer.isFinal l.next.1 }) := by
        rw [ByteLexer.step, if_neg (by simp [h.finished, hl]), hn]
        have hfinished : b'.finished = false := hm.finished.trans ((Lexer.next_finished l).trans hl)
        show some (some l.next.1, if Lexer.isFinal l.next.1 then { b' with finished := true } else b') = _
        cases Lexer.isFinal l.next.1 with
        | true => rfl
        | false => rw [if_neg Bool.false_ne_true, ← hfinished]
      refine ⟨read', _, by rw [hs]; exact hstep, ?_, fun fault he => ?_⟩
      · rw [hs]
        exact { hm with reached := hm.reached.finished _, finished := rfl }
      · rw [hs] at he
        exact hf fault (Option.some.inj he)

theorem run (h : Mirrors text read l b) (calls : List Lexer.Call) : ∃ read' b',
    b.run calls = some (l.answers calls, b') ∧ Mirrors text read' (l.run calls) b' := by
  induction calls generalizing l b read with
  | nil => exact ⟨read, b, rfl, h⟩
  | cons call calls ih =>
    obtain ⟨read₁, b₁, ha, h₁, -⟩ := h.answer call
    obtain ⟨read₂, b₂, hr, h₂⟩ := ih h₁
    refine ⟨read₂, b₂, ?_, h₂⟩
    rw [ByteLexer.run, ha]
    simp only [Option.bind_eq_bind, Option.bind_some, hr]
    rfl

end Mirrors

/-! ## Any calls -/

/-- What holds of a lexer of `text` at any time. -/
structure Sound (text : String) (b : ByteLexer) : Prop where
  start_le : b.start ≤ b.place
  place_le : b.place ≤ text.utf8ByteSize
  start : String.Pos.Raw.IsValid text ⟨b.start⟩
  place : String.Pos.Raw.IsValid text ⟨b.place⟩
  line : b.line = 1 + ((bytes text).take b.place).count '\n'.toUInt8
  fault : ∀ call fault b', b.answer call = some (some (.error fault), b') → FaultAt text.toList b' fault
  rewind : b.rewind = ofText text

theorem Mirrors.sound (h : Mirrors text read l b) : Sound (String.ofList text) b := by
  obtain ⟨u, v, rfl, hu⟩ := h.start
  have hsplit := h.reached.split
  have htext : (encode text).length = (String.ofList text).utf8ByteSize := length_encode text
  constructor
  case start_le => rw [hu, h.place, encode_append, List.length_append]; exact Nat.le_add_right ..
  case place_le => rw [h.place, ← htext, ← hsplit, encode_append (u ++ v), List.length_append]; exact Nat.le_add_right ..
  case start =>
    rw [hu, ← hsplit, List.append_assoc]
    exact isValid_append u (v ++ l.rest)
  case place =>
    rw [h.place, ← hsplit]
    exact isValid_append (u ++ v) l.rest
  case line =>
    have hread : (bytes (String.ofList text)).take b.place = encode (u ++ v) := by
      rw [h.place, bytes_ofList, ← hsplit, encode_append (u ++ v), List.take_left]
    rw [hread, count_encode (by decide), h.line, h.reached.line]
  case fault =>
    intro call fault b' ha
    obtain ⟨read', b₁, h₁, -, hf⟩ := h.answer call
    rw [h₁] at ha
    obtain ⟨he, rfl⟩ := Prod.mk.inj (Option.some.inj ha)
    rw [String.toList_ofList]
    exact hf fault he
  case rewind => exact h.rewind_eq

/-- Whatever is called, no byte past the end is asked for and no slice is taken off a boundary.
    The results are those of the lexer of characters. -/
theorem run_sound (text : String) (calls : List Lexer.Call) :
    ∃ b, (ofText text).run calls = some ((Lexer.ofText text).answers calls, b) ∧ Sound text b ∧
      b.place = ((Lexer.ofText text).run calls).offset ∧ b.line = ((Lexer.ofText text).run calls).line ∧
      b.finished = ((Lexer.ofText text).run calls).finished := by
  obtain ⟨read, b, hr, h⟩ := (Mirrors.ofChars text.toList).run calls
  have hsound := h.sound
  rw [String.ofList_toList] at hr hsound
  refine ⟨b, hr, hsound, ?_, h.line, h.finished⟩
  rw [h.place, length_encode]
  exact h.reached.offset_eq.symm

end ScriptLang.ByteLexer
