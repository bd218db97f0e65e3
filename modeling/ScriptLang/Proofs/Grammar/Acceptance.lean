/-
  ScriptLang.Proofs.Grammar.Acceptance — the programs that a source gives.

  The tokens of a source, from its start up to its first end token, either derive a program or
  do not. Where they do, reading gives that program; where they do not, it gives a fault.
  - `Lookahead.parse_derives` / `Program.parse_eq`: what is read derives, and the other way round.
  - `Lookahead.parse_ok_iff_program`: reading gives what the tokens derive, and nothing else.
  - `parse_of_lexes`: so does reading a text that lexes to such tokens.
-/

import ScriptLang.Proofs.Grammar.Soundness
import ScriptLang.Proofs.Grammar.Completeness
import ScriptLang.Proofs.Lexer.Lexing

namespace ScriptLang

open Grammar

variable {σ : Type} [TokenStream σ] {s : Lookahead σ} {w : List Token} {e : Token} {last : Except Fault Token}

/-- Reading ends in a program of all the tokens, or in a fault that is not for want of depth. -/
theorem Lookahead.parse_derives (h : Gives TokenStream.pull (TokenStream.rewind s.source) w last) : match s.parse.1 with
      | .ok b => Program w b ∧ ∃ e, last = .ok e
      | .error f => last = .error f ∨ f ≠ .tooDeep := by
  have hn : 8 * w.length + 4 ≤ depthFor (TokenStream.bound s.source) := by
    have := TokenStream.length_le_bound h
    unfold depthFor
    omega
  have hp := parse_of_reads h (wholeScope_reads hn)
  revert hp
  rcases s.parse with ⟨f | b, s'⟩
  · intro hp
    rcases hp with hf | ⟨_, _, hf⟩
    · exact .inl hf
    · exact .inr hf
  · exact fun ⟨_, _, hb⟩ => hb

/-- A program that the tokens derive is read. -/
theorem Grammar.Program.parse_eq {b : Scope} (hb : Program w b)
    (h : Gives TokenStream.pull (TokenStream.rewind s.source) w (.ok e)) : s.parse.1 = .ok b := by
  have hp := Lookahead.parse_of_reads h (hb.read _)
  have hd := Lookahead.parse_derives h
  revert hp hd
  rcases s.parse with ⟨f | b', s'⟩
  · intro hp hd
    rcases hp with hf | ⟨_, _, hf⟩ <;> rcases hd with hd | hd
    · cases hf
    · cases hf
    · cases hd
    · exact absurd hf hd
  · intro hp _
    rcases hp with ⟨_, _, rfl, _⟩
    rfl

/-- Where the tokens up to the end derive a program, reading gives that program; where they
    derive none, it gives a fault. -/
theorem Lookahead.parse_ok_iff_program (h : Gives TokenStream.pull (TokenStream.rewind s.source) w (.ok e)) :
    (∀ b, s.parse.1 = .ok b ↔ Program w b) ∧ ((¬ ∃ b, Program w b) → ∃ f, s.parse.1 = .error f ∧ f ≠ .tooDeep) := by
  have hd := parse_derives h
  refine ⟨fun b => ⟨fun hb => ?_, fun hb => hb.parse_eq h⟩, fun hno => ?_⟩
  · rw [hb] at hd
    exact hd.1
  · cases hp : s.parse.1 with
    | ok b =>
      rw [hp] at hd
      exact absurd ⟨b, hd.1⟩ hno
    | error f =>
      rw [hp] at hd
      exact ⟨f, rfl, hd.resolve_left nofun⟩

theorem parse_assignment : (Lookahead.ofSource (Replay.ofItems [.ok ⟨.name, "x"⟩, .ok ⟨.assign, "="⟩, .ok ⟨.name, "y"⟩])).parse.1 =
    .ok [.assign "x" (.var "y")] := by
  refine ((Lookahead.parse_ok_iff_program (w := [⟨.name, "x"⟩, ⟨.assign, "="⟩, ⟨.name, "y"⟩]) (e := Token.endOfText) ?_).1 _).mpr ?_
  · exact .token rfl nofun (.token rfl nofun (.token rfl nofun (.final rfl rfl)))
  · have hx : Named ⟨.name, "x"⟩ := ⟨rfl, by decide⟩
    have hy : Named ⟨.name, "y"⟩ := ⟨rfl, by decide⟩
    exact .cons (.assign hx rfl (.chain (.var hy) .nil .operand)) .nil .nil

/-- A text whose tokens derive a program is read as that program. -/
theorem parse_of_lexes {cs : List Char} {ts : List Token} {b : Scope} (h : Lexes cs ts) (hb : Program ts b) :
    parse (String.ofList cs) = .ok b :=
  hb.parse_eq (s := Lookahead.ofSource (Lexer.ofText (String.ofList cs)))
    (h (Lexer.ofText (String.ofList cs)).rewind String.toList_ofList)

end ScriptLang
