/-
  ScriptLang.Proofs.Lexer.Classes — what is known of every token of a lexer.

  Every token of a lexer is of its class. `Lexical t` is what the grammar needs of that: a name
  is an identifier and no keyword, a number starts with a digit, a string has not both quotes,
  and the kind is none of the five that no text spells.
  - `scan_ofClass`: so is the token of a lexeme, whatever the text.
  - `Lexer.exists_gives` / `Lexer.ofClass_of_gives`: a lexer gives tokens up to the end or a
    fault, and every one of them is such a token.
-/

import ScriptLang.Proofs.Lexer.Spelling
import ScriptLang.Tree.Basic

namespace ScriptLang

open Lexeme
open Token (Kind)

/-- A kind of token that no text spells. -/
def isReserved : Kind → Bool
  | .shiftLeft | .shiftRight | .ampersand | .bar | .doubleCaret => true
  | _ => false

structure Lexical (t : Token) : Prop where
  name : t.kind = .name → IsName t.text
  number : t.kind = .number → ∃ c cs, t.text.toList = c :: cs ∧ c.isDigit = true
  string : t.kind = .string → LacksQuote t.text
  free : isReserved t.kind = false

theorem IsName.proper {name : String} (h : IsName name) : isProperName name = true := by
  obtain ⟨c, cs, hn, hc, -⟩ := h.identifier
  simp [isProperName, hn, Lexes.not_digit_of_startsName hc]

namespace Token.OfClass

variable {t : Token}

/-- The end of a text, and a reserved kind, have no text. -/
theorem kind_ne (h : t.OfClass) : t.kind ≠ .endOfText ∧ isReserved t.kind = false := by
  have hs : ∀ k : Kind, k.spellings ≠ [] → k ≠ .endOfText ∧ isReserved k = false := by
    intro k
    cases k <;> decide
  unfold Token.OfClass at h
  split at h
  case h_6 => exact hs _ (List.ne_nil_of_mem h)
  all_goals simp [*, isReserved]

theorem lexical (h : t.OfClass) : Lexical t where
  name hk := by rwa [Token.OfClass, hk] at h
  number hk := by
    rw [Token.OfClass, hk] at h
    obtain ⟨parts, hp, htext⟩ := h
    rw [htext]
    exact hp.pointed_head
  string hk := by rwa [Token.OfClass, hk] at h
  free := h.kind_ne.2

end Token.OfClass

/-! ## Lexers -/

theorem Lexeme.scan_ofClass {c : Char} {cs : List Char} {t : Token} (ht : (scan c cs).outcome = .ok t) : t.OfClass :=
  (scan_spells ht).ofClass.1

namespace Lexer

variable {l l' : Lexer} {t : Token}

/-- A token is the end token, with blanks alone left, or that of the lexeme after the blanks. -/
theorem pull_ok (h : l.pull = (.ok t, l')) : (t.kind = .endOfText ∧ l.rest.dropWhile isBlank = []) ∨
    ∃ c cs, l.rest.dropWhile isBlank = c :: cs ∧ isBlank c = false ∧
      (scan c cs).outcome = .ok t ∧ l'.rest = (scan c cs).rest := by
  have hb := List.head?_dropWhile_not isBlank l.rest
  unfold pull next at h
  cases hd : l.rest.dropWhile isBlank with
  | nil =>
    rw [hd] at h
    cases h
    exact .inl ⟨rfl, rfl⟩
  | cons c cs =>
    rw [hd] at h hb
    obtain ⟨ht, rfl⟩ := Prod.mk.inj h
    refine .inr ⟨c, cs, rfl, by simpa using hb, ?_, rfl⟩
    cases ho : (scan c cs).outcome with
    | error cause => simp only [ho] at ht; cases ht
    | ok u => simp only [ho] at ht; cases ht; rfl

/-- Every text gives tokens up to its end or up to a fault. -/
theorem exists_gives (l : Lexer) : ∃ w r, Gives Lexer.pull l w r := by
  induction hn : l.rest.length using Nat.strongRecOn generalizing l with
  | ind n ih =>
    cases hf : ScriptLang.isFinal l.pull.1 with
    | true => exact ⟨[], l.pull.1, .final (Prod.ext rfl rfl : l.pull = (l.pull.1, l.pull.2)) hf⟩
    | false =>
      cases hp : l.pull.1 with
      | error f => rw [hp] at hf; cases hf
      | ok t =>
        have hk : t.kind ≠ .endOfText := fun he => by rw [hp] at hf; simp [ScriptLang.isFinal, he] at hf
        have hne : l.next.1 ≠ .ok Token.endOfText := fun he => by
          simp only [Lexer.pull, he] at hp
          cases hp
          exact hk rfl
        obtain ⟨w, r, hg⟩ := ih _ (hn ▸ next_rest_length_lt hne) l.next.2 rfl
        exact ⟨t :: w, r, .token (Prod.ext hp rfl) hk hg⟩

theorem ofClass_of_gives {w : List Token} {r : Except Fault Token} (h : Gives Lexer.pull l w r) :
    ∀ t ∈ w, t.OfClass := by
  induction h with
  | final => exact nofun
  | @token l l' t w r hp hk _ ih =>
    refine List.forall_mem_cons.mpr ⟨?_, ih⟩
    rcases pull_ok hp with ⟨he, -⟩ | ⟨c, cs, -, -, ht, -⟩
    · exact absurd he hk
    · exact scan_ofClass ht

theorem lexical_of_gives {w : List Token} {r : Except Fault Token} (h : Gives Lexer.pull l w r) :
    ∀ t ∈ w, Lexical t := fun t ht => (ofClass_of_gives h t ht).lexical

end Lexer

end ScriptLang
