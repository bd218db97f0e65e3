/-
  ScriptLang.Proofs.Grammar.Blame — a fault is about the first token that fits no program.

  The tokens taken before a fault can be followed by others to make a program; with the token
  of the fault after them they cannot, and if that is the end token, they make none
  themselves.
  - `Accepted.feeds` / `accepted_of_feeds`: what is accepted is what the automaton takes to the
    end, for tokens that no reader finds fault with once they are taken.
  - `Lookahead.parse_blames`: that is so for every source of such tokens.
  - `parse_offender`: and for every text.
-/

import ScriptLang.Proofs.Grammar.Acceptance
import ScriptLang.Proofs.Grammar.Tracking
import ScriptLang.Proofs.Lexer.Classes

namespace ScriptLang

open Grammar

/-- How a fault about a token words it: a literal by its text, other tokens by a description. -/
def Fault.wording (f : Fault) (t : Token) : String :=
  match f with
  | .malformed _ _ => t.text
  | _ => t.describe

theorem Fault.message_wording {f : Fault} {t : Token} (h : f.offender? = some t) :
    ∃ a b, f.message = a ++ f.wording t ++ b := by
  cases f <;> cases h
  case unexpected wanted => exact ⟨_, ")", rfl⟩
  case noStatement => exact ⟨"Incomplete/unparsable statement at ", "", (String.append_empty ..).symm⟩
  case malformed form =>
    have hassoc (a b c d e : String) : a ++ b ++ c ++ d ++ e = a ++ b ++ (c ++ d ++ e) := by
      simp only [String.append_assoc]
    exact ⟨_, _, hassoc "Literal format error: " t.text " (expected " form.message ")"⟩
  case trailing => exact ⟨"Unexpected token at end of input: ", "", (String.append_empty ..).symm⟩

/-! ## Lists of tokens as sources -/

/-- Reading these tokens, and end tokens after them, gives a program. -/
def Accepted (w : List Token) : Prop := ∃ b, parseSource (Replay.ofItems (w.map .ok)) = .ok b

/-- The tokens before the first end token. -/
def beforeEnd (w : List Token) : List Token := w.takeWhile fun t => t.kind != .endOfText

theorem beforeEnd_append {u w : List Token} (h : ∀ t ∈ u, t.kind ≠ .endOfText) : beforeEnd (u ++ w) = u ++ beforeEnd w :=
  List.takeWhile_append_of_pos fun t ht => bne_iff_ne.mpr (h t ht)

theorem beforeEnd_eq_self {w : List Token} (h : ∀ t ∈ w, t.kind ≠ .endOfText) : beforeEnd w = w := by
  have hw := beforeEnd_append (w := []) h
  rwa [List.append_nil, show beforeEnd [] = [] from rfl, List.append_nil] at hw

theorem Replay.gives {r : Replay} {w : List Token} (hr : r.rest = w.map .ok) :
    ∃ e, Gives Replay.next r (beforeEnd w) (.ok e) := by
  induction w generalizing r with
  | nil =>
    have hn : r.next = (.ok Token.endOfText, r) := by rw [Replay.next, hr]; rfl
    exact ⟨Token.endOfText, .final hn rfl⟩
  | cons t w ih =>
    have hn : r.next = (.ok t, { r with rest := w.map .ok }) := by rw [Replay.next, hr]; rfl
    by_cases hk : t.kind = .endOfText
    · rw [beforeEnd, List.takeWhile_cons_of_neg (by simp [hk])]
      exact ⟨t, .final hn (beq_iff_eq.mpr hk)⟩
    · obtain ⟨e, he⟩ := ih (r := { r with rest := w.map .ok }) rfl
      rw [beforeEnd, List.takeWhile_cons_of_pos (by simp [hk])]
      exact ⟨e, .token hn hk he⟩

/-- The automaton takes to the end what is accepted. -/
theorem Accepted.feeds {w : List Token} (h : Accepted w) :
    (feeds [.scope] (beforeEnd w ++ [Token.endOfText])).isSome = true := by
  obtain ⟨b, hb⟩ := h
  obtain ⟨e, hg⟩ := Replay.gives (r := Replay.ofItems (w.map .ok)) rfl
  have hp := Lookahead.parse_of_reads (s := Lookahead.ofSource (Replay.ofItems (w.map .ok))) hg (wholeScope_tracks _)
  obtain ⟨s', hs⟩ : ∃ s', (Lookahead.ofSource (Replay.ofItems (w.map .ok))).parse = (.ok b, s') := ⟨_, Prod.ext hb rfl⟩
  rw [hs] at hp
  obtain ⟨_, _, e', he, hf⟩ := hp
  cases he
  rwa [feeds_end hg.final_kind] at hf

/-- What the automaton takes to the end is accepted. -/
theorem accepted_of_feeds {w : List Token} (hw : ∀ t ∈ w, Regular t ∧ t.kind ≠ .endOfText)
    (h : (feeds [.scope] (w ++ [Token.endOfText])).isSome = true) : Accepted w := by
  obtain ⟨e, hg⟩ := Replay.gives (r := Replay.ofItems (w.map .ok)) rfl
  rw [beforeEnd_eq_self fun t ht => (hw t ht).2] at hg
  have hp := Lookahead.parse_of_reads (s := Lookahead.ofSource (Replay.ofItems (w.map .ok))) hg (wholeScope_tracks _)
  have hd := Lookahead.parse_derives (s := Lookahead.ofSource (Replay.ofItems (w.map .ok))) hg
  rw [Accepted, parseSource]
  revert hp hd
  rcases (Lookahead.ofSource (Replay.ofItems (w.map .ok))).parse with ⟨f | b, s'⟩
  · intro hp hd
    rcases hp with hl | ⟨y, -, hb⟩
    · cases hl
    exfalso
    rcases hb with hb | ⟨t, ht, hr⟩ | ⟨t, -, -, ht, u, c, hW, hu, hc⟩
    · exact hd.elim nofun (absurd hb)
    · exact hr (hw t ht).1
    · rw [← feeds_end hg.final_kind, hW] at h
      have hnone : ∃ v, y ++ [e] = t :: v := by
        cases ht with
        | token => exact ⟨_, rfl⟩
        | final hl => cases hl; exact ⟨[], rfl⟩
      obtain ⟨v, hv⟩ := hnone
      rw [List.append_assoc, hv, feeds_refused hu (hc t ht)] at h
      cases h
  · exact fun _ _ => ⟨b, rfl⟩

/-! ## Faults -/

/-- The tokens `p` fit a program that goes on after them, but not with `t` next. -/
structure Offends (p : List Token) (t : Token) : Prop where
  viable : ∃ v, Accepted (p ++ v)
  refused : t.kind ≠ .endOfText → ∀ v, ¬ Accepted (p ++ t :: v)
  unfinished : t.kind = .endOfText → ¬ Accepted p

theorem offends_of_refused {p : List Token} {c : List Frame} {t : Token} (hp : ∀ u ∈ p, Regular u ∧ u.kind ≠ .endOfText)
    (hc : feeds [.scope] p = some c) (ht : feed c t = none) : Offends p t where
  viable := by
    have hn : Nested c := Nested.feeds (c := [.scope]) ⟨rfl, trivial⟩ (fun u hu => (hp u hu).2) hc
    refine ⟨finish c, accepted_of_feeds (List.forall_mem_append.mpr ⟨hp, hn.finish_regular⟩) ?_⟩
    rw [List.append_assoc, feeds_append, hc, Option.bind_some, feeds_finish hn]
    rfl
  refused hk v hv := by
    have hf := hv.feeds
    have hpt : ∀ u ∈ p ++ [t], u.kind ≠ .endOfText :=
      List.forall_mem_append.mpr ⟨fun u hu => (hp u hu).2, List.forall_mem_singleton.mpr hk⟩
    rw [List.append_cons p t v, beforeEnd_append hpt, List.append_assoc, List.append_assoc, List.singleton_append,
      feeds_refused hc ht] at hf
    cases hf
  unfinished hk hv := by
    have hf := hv.feeds
    rw [beforeEnd_eq_self fun u hu => (hp u hu).2, ← feeds_end hk, feeds_refused hc ht] at hf
    cases hf

/-- A fault about a token that the source gives is about the first that fits no program. -/
theorem Lookahead.parse_blames {σ : Type} [TokenStream σ] {s s' : Lookahead σ} {w : List Token} {last : Except Fault Token}
    {f : Fault} {t : Token} (hg : Gives TokenStream.pull (TokenStream.rewind s.source) w last)
    (hw : ∀ t ∈ w, Regular t) (hl : last ≠ .error f) (h : s.parse = (.error f, s')) (hf : f.offender? = some t) :
    ∃ p x, w = p ++ x ∧ Ahead last s' x ∧ Next last x t ∧ Offends p t := by
  have hp := Lookahead.parse_of_reads hg (wholeScope_tracks _)
  rw [h] at hp
  obtain ⟨x, hx, hb⟩ := hp.resolve_left hl
  rcases hb with rfl | ⟨u, hu, hr⟩ | ⟨u, hu, -, hnext, p, c, hW, hc, hrefuse⟩
  · cases hf
  · exact absurd (hw u hu) hr
  · obtain rfl := Option.some.inj (hu.symm.trans hf)
    have hp : ∀ v ∈ p, Regular v ∧ v.kind ≠ .endOfText := by
      intro v hv
      have hv : v ∈ w := hW ▸ List.mem_append_left x hv
      exact ⟨hw v hv, hg.kind_ne v hv⟩
    exact ⟨p, x, hW, hx, hnext, offends_of_refused hp hc (hrefuse u hnext)⟩

/-! ## Texts -/

theorem Lexical.regular {t : Token} (h : Lexical t) : Regular t where
  name hk := (h.name hk).proper
  operator ho hn := by
    have hf := h.free
    revert hf ho hn
    cases t.kind <;> simp [isReserved, BinaryOp.ofKind?] <;> decide

/-- The only faults of a lexer are lexical ones. -/
theorem Lexer.error_of_gives {l : Lexer} {w : List Token} {f : Fault} (h : Gives Lexer.pull l w (.error f)) :
    ∃ fault, f = .lexical fault := by
  generalize hr : Except.error f = r at h
  induction h with
  | token _ _ _ ih => exact ih hr
  | @final l l' r hp =>
    subst hr
    obtain ⟨hn, -⟩ := Prod.mk.inj hp
    cases hl : l.next.1 with
    | ok t => rw [hl] at hn; cases hn
    | error g => rw [hl] at hn; cases hn; exact ⟨g, rfl⟩

/-- A fault about a token is worded with that token; the tokens taken before it fit a program
    that goes on after them, and fit none that goes on with it. -/
theorem parse_offender {text : String} {s : Lookahead Lexer} {f : Fault} {t : Token}
    (h : (Lookahead.ofSource (Lexer.ofText text)).parse = (.error f, s)) (hf : f.offender? = some t) :
    (∃ a b, f.message = a ++ f.wording t ++ b) ∧ ∃ p x last, Gives Lexer.pull (Lexer.ofText text) (p ++ x) last ∧
      Ahead last s x ∧ Next last x t ∧ Offends p t := by
  obtain ⟨w, last, hg⟩ := (Lexer.ofText text).exists_gives
  have hw : ∀ u ∈ w, Regular u := fun u hu => (Lexer.lexical_of_gives hg u hu).regular
  have hl : last ≠ .error f := by
    intro he
    subst he
    obtain ⟨fault, rfl⟩ := Lexer.error_of_gives hg
    cases hf
  obtain ⟨p, x, rfl, hx⟩ := Lookahead.parse_blames hg hw hl h hf
  exact ⟨Fault.message_wording hf, p, x, last, hg, hx⟩

/-- The value is missing, and the parenthesis stands in its place. -/
theorem parse_offender_value : ∃ s,
    (Lookahead.ofSource (Lexer.ofText "x=)")).parse = (.error (.noStatement ⟨.closeParen, ")"⟩), s) ∧
    ∃ p x last, Gives Lexer.pull (Lexer.ofText "x=)") (p ++ x) last ∧ Ahead last s x ∧ Next last x ⟨.closeParen, ")"⟩ ∧
      Offends p ⟨.closeParen, ")"⟩ := by
  have h : (Lookahead.ofSource (Lexer.ofText "x=)")).parse.1 = .error (.noStatement ⟨.closeParen, ")"⟩) := by rfl
  exact ⟨_, Prod.ext h rfl, (parse_offender (Prod.ext h rfl) rfl).2⟩

end ScriptLang
