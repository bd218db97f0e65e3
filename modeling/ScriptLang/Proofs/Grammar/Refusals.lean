/-
  ScriptLang.Proofs.Grammar.Refusals — the faults that a text can be refused with.

  Some faults guard against tokens that no lexer gives: an operator that is reserved, a name
  that is not proper, a number that is none. A text is refused with none of them, and of the
  literals only a date can be found wrong, one whose numbers are those of no day.
  - `Token.OfClass.malformed`: which literals of their class cannot be read.
  - `parse_error_cases`: a fault is lexical, or is fair and about a token of the text or its end.
  - `parse_refusals`: what follows for the wording of a refusal.
-/

import ScriptLang.Proofs.Calendar.Written
import ScriptLang.Proofs.Grammar.Blame

namespace ScriptLang

open Grammar
open Token (Kind)

theorem head_toList_append {a b : String} {c : Char} (h : a.toList.head? = some c) : (a ++ b).toList.head? = some c := by
  rw [String.toList_append, List.head?_append, h]
  rfl

/-- What is asked for is not worded as a judgement of a name. -/
theorem Expectation.Asked.message_ne {w : Expectation} (h : w.Asked) : w.message ≠ "Invalid qualifier" := by
  have around (a b c : String) (ha : a.toList.head? = some 'E') : (a ++ b ++ c).toList.head? ≠ some 'I' := by
    rw [head_toList_append (head_toList_append ha)]
    decide
  have hhead : w.message.toList.head? ≠ some 'I' := by
    cases w
    case properName | other => exact h.elim
    case mark | rightOperand | operand => exact around _ _ _ (by decide)
    all_goals decide
  intro he
  rw [he] at hhead
  exact hhead (by decide)

/-! ## Literals -/

/-- The number that digits write, with a point or without one, is always read. -/
theorem Literal.ofNumber?_pointed {text : String} {parts : List Char × List Char} (h : Digits parts)
    (htext : text.toList = Double.pointed parts) : Literal.ofNumber? text ≠ none := by
  unfold Literal.ofNumber?
  rw [htext, Numeral.double?_pointed h]
  split
  · exact Option.some_ne_none _
  · exact Option.some_ne_none _

/-- A date in digits that names no day of the calendar. -/
def NamesNoDay (text : String) : Prop :=
  ∃ day month year, DateDigits day month year ∧ text.toList = day ++ '/' :: (month ++ '/' :: year) ∧
    ∀ d : Date, d.day = Date.number day → d.month = Date.number month → d.year ≠ Date.number year

theorem namesNoDay_of_unread {text : String} {day month year : List Char} (h : DateDigits day month year)
    (htext : text.toList = day ++ '/' :: (month ++ '/' :: year)) (hnone : Literal.ofDate? text = none) :
    NamesNoDay text := by
  refine ⟨day, month, year, h, htext, fun d hd hm hy => ?_⟩
  have hexists := d.exists_day
  rw [hd, hm, hy] at hexists
  rw [Literal.ofDate?, htext, Date.ofChars?_digits h.lengths h.digits, Date.ofYearMonthDay?, dif_pos hexists] at hnone
  cases hnone

/-- A literal of its class that cannot be read is a date, and names no day. -/
theorem Token.OfClass.malformed {t : Token} {form : LiteralForm} (h : t.OfClass)
    (hl : literalOf t = .error (.malformed t form)) : form = .date ∧ t.kind = .date ∧ NamesNoDay t.text := by
  unfold literalOf at hl
  split at hl
  case h_5 hk =>
    rw [Token.OfClass, hk] at h
    obtain ⟨parts, hp, htext⟩ := h
    split at hl
    · cases hl
    · rename_i hnone
      exact absurd hnone (Literal.ofNumber?_pointed hp htext)
  case h_6 hk =>
    rw [Token.OfClass, hk] at h
    obtain ⟨day, month, year, hp, htext⟩ := h
    split at hl
    · cases hl
    · rename_i hnone
      cases hl
      exact ⟨rfl, hk, namesNoDay_of_unread hp htext hnone⟩
  all_goals cases hl

/-! ## Texts -/

/-- A fault is lexical, or it is as it says, about the end of the text or a token of it. -/
theorem parse_error_cases {text : String} {f : Fault} (h : parse text = .error f) : ∃ w last,
    Gives Lexer.pull (Lexer.ofText text) w last ∧ ((∃ fault, f = .lexical fault) ∨ f = .tooDeep ∨
      ∃ t, f.offender? = some t ∧ f.Fair ∧ (t.kind = .endOfText ∨ t ∈ w)) := by
  obtain ⟨w, last, hg⟩ := (Lexer.ofText text).exists_gives
  refine ⟨w, last, hg, ?_⟩
  have hp := Lookahead.parse_of_reads (s := Lookahead.ofSource (Lexer.ofText text)) hg (wholeScope_tracks _)
  obtain ⟨s', hs⟩ : ∃ s', (Lookahead.ofSource (Lexer.ofText text)).parse = (.error f, s') := ⟨_, Prod.ext h rfl⟩
  rw [hs] at hp
  rcases hp with rfl | ⟨y, -, rfl | ⟨t, ht, hr⟩ | ⟨t, ht, hfair, hnext, u, c, hw, -⟩⟩
  · exact .inl (Lexer.error_of_gives hg)
  · exact .inr (.inl rfl)
  · exact absurd (Lexer.lexical_of_gives hg t ht).regular hr
  · refine .inr (.inr ⟨t, ht, hfair, ?_⟩)
    cases hnext with
    | token => exact .inr (by rw [hw]; simp)
    | final _ hk => exact .inl hk

/-- A text is never refused for an operator that is reserved, a name that is not proper or a
    number that is none; and for a date only if it is one of its tokens, in digits, and names
    no day. -/
theorem parse_refusals {text : String} {f : Fault} (h : parse text = .error f) :
    (∀ t, f ≠ .unsupportedOperator t) ∧
    (∀ wanted t, f = .unexpected wanted t → wanted.message ≠ "Invalid qualifier") ∧
    ∀ t form, f = .malformed t form → form.message ≠ "a number" ∧ t.kind = .date ∧ NamesNoDay t.text ∧
      ∃ w last, Gives Lexer.pull (Lexer.ofText text) w last ∧ t ∈ w := by
  obtain ⟨w, last, hg, ⟨fault, rfl⟩ | rfl | ⟨u, hu, hfair, hmem⟩⟩ := parse_error_cases h
  · refine ⟨nofun, fun wanted t he => ?_, nofun⟩
    cases he
  · refine ⟨nofun, fun wanted t he => ?_, nofun⟩
    cases he
  · refine ⟨?_, ?_, ?_⟩
    · rintro t rfl
      cases hu
    · rintro wanted t rfl
      exact Expectation.Asked.message_ne hfair
    · rintro t form rfl
      obtain rfl : t = u := Option.some.inj hu
      -- The end token is no literal, so what cannot be read is a token of the text.
      have ht : t ∈ w := by
        refine hmem.resolve_left fun hk => ?_
        have hl : literalOf t = _ := hfair
        simp [literalOf, hk] at hl
      obtain ⟨rfl, hk, hno⟩ := (Lexer.ofClass_of_gives hg t ht).malformed hfair
      exact ⟨by decide, hk, hno, w, last, hg, ht⟩

/-- There is no such day in February. -/
theorem parse_refusals_february : parse "x=31/02/2024" = .error (.malformed ⟨.date, "31/02/2024"⟩ .date) ∧
    NamesNoDay "31/02/2024" := by
  have h : parse "x=31/02/2024" = .error (.malformed ⟨.date, "31/02/2024"⟩ .date) := by
    have refused : (match parse "x=31/02/2024" with
      | .error f => decide (f = .malformed ⟨.date, "31/02/2024"⟩ .date)
      | .ok _ => false) = true := by decide +kernel
    cases hp : parse "x=31/02/2024" with
    | error f => rw [hp] at refused; exact congrArg _ (of_decide_eq_true refused)
    | ok b => rw [hp] at refused; cases refused
  exact ⟨h, ((parse_refusals h).2.2 _ _ rfl).2.2.1⟩

end ScriptLang
