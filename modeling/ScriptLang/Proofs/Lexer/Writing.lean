/-
  ScriptLang.Proofs.Lexer.Writing — a lexer undoes writing tokens out.

  `Written ts cs`: the tokens stand one after the other in `cs`, with blanks between them, but
  with none after a comment. A comment takes the blanks after it, so a line break must follow.
  - `Lexes.spelled`: one token, in front of a blank, a line break or the end.
  - `Written.lexes` / `Lexer.items_written`: tokens of their classes are lexed as they were.
-/

import Mathlib.Data.List.Chain
import Mathlib.Data.List.TakeWhile
import ScriptLang.Proofs.Lexer.Eager
import ScriptLang.Proofs.Lexer.Joining

namespace ScriptLang

open Lexeme
open Token (Kind)

/-- Blanks between tokens, and nothing after a comment. -/
inductive Written : List Token → List Char → Prop
  | nil : Written [] []
  | one {t : Token} {u : List Char} : t.WrittenAs u → Written [t] u
  | spaced {t t' : Token} {ts : List Token} {u w v : List Char} : t.WrittenAs u → t.kind ≠ .comment → w ≠ [] →
      (∀ c ∈ w, isBlank c = true) → Written (t' :: ts) v → Written (t :: t' :: ts) (u ++ (w ++ v))
  | comment {t t' : Token} {ts : List Token} {u v : List Char} : t.WrittenAs u → t.kind = .comment →
      Written (t' :: ts) v → Written (t :: t' :: ts) (u ++ v)

/-- A comment is the last token or the last of its line. -/
def CommentsEndLines (ts : List Token) : Prop := ts.IsChain fun t t' => t.kind = .comment → t'.kind = .newline

/-! ## One token -/

section

variable {t : Token} {u rest : List Char} {ts : List Token}

theorem blank_apart {d : Char} (h : isBlank d = true ∨ d = '\n') : continuesName d = false ∧ d ≠ '.' ∧ d ≠ '/' ∧ d ≠ '=' := by
  simp only [isBlank, Bool.or_eq_true, beq_iff_eq] at h
  rcases h with ((rfl | rfl) | rfl) | rfl <;> decide

theorem Lexes.spelled (hs : Spells u t) (hr : ∀ d ∈ rest.head?, isBlank d = true ∨ d = '\n')
    (hcomment : t.kind = .comment → ∀ d ∈ rest.head?, d = '\n') (h : Lexes rest ts) : Lexes (u ++ rest) (t :: ts) := by
  have apart : Apart rest := fun d hd =>
    have hd := blank_apart (hr d hd)
    ⟨hd.1, hd.2.1, hd.2.2.1⟩
  cases hs with
  | mark hm => exact .mark hm h
  | together hp => exact .together hp h
  | @alone c p k hp ha =>
    refine .alone hp ha (fun d hd he => ?_) h
    have hsecond : isBlank p.second = false ∧ p.second ≠ '\n' := by
      unfold pair? at hp
      split at hp <;> cases hp <;> decide
    rcases hr d hd with hb | hb
    · rw [he, hsecond.1] at hb
      cases hb
    · exact hsecond.2 (he ▸ hb)
  | @comment cs hn =>
    obtain ⟨htake, hdrop⟩ := takeWhile_run (p := (· != '\n')) (u := cs) (v := rest)
      (fun d hd => bne_iff_ne.mpr fun he => hn (he ▸ hd)) (fun d hd => by simp [hcomment rfl d hd])
    have hs : scan '#' (cs ++ rest) = ofToken .comment ('#' :: cs) rest := by
      rw [show scan '#' (cs ++ rest) = scanComment '#' (cs ++ rest) from rfl, scanComment, htake, hdrop]
    show Lexes ('#' :: (cs ++ rest)) _
    exact .lexeme rfl (by rw [hs]; rfl) (fun he => by cases he) (by rw [hs]; exact h)
  | string hq hb =>
    rw [List.cons_append, List.append_assoc]
    exact .string hq hb h
  | number hp => exact .number hp apart h
  | date hp =>
    simp only [List.cons_append, List.append_assoc]
    exact .date hp.lengths hp.digits apart.not_digit h
  | word hc hcs => exact .word hc hcs (fun d hd => (apart d hd).1) h

/-- A token of its class can be written. -/
theorem Token.OfClass.exists_written (h : t.OfClass) : ∃ u, t.WrittenAs u := by
  by_cases hk : t.kind = .string
  · rw [Token.OfClass, hk] at h
    rcases h with hq | hq
    · exact ⟨_, .quoted hk rfl hq⟩
    · exact ⟨_, .quoted hk rfl hq⟩
  · exact ⟨_, .plain hk⟩

end

/-! ## Texts -/

namespace Written

variable {t : Token} {ts : List Token} {cs : List Char}

theorem head (h : Written (t :: ts) cs) : ∃ u v, t.WrittenAs u ∧ cs = u ++ v := by
  cases h with
  | one hu => exact ⟨_, [], hu, (List.append_nil _).symm⟩
  | spaced hu => exact ⟨_, _, hu, rfl⟩
  | comment hu => exact ⟨_, _, hu, rfl⟩

/-- A text whose first token is a line break starts with one. -/
theorem head_newline (h : Written (t :: ts) cs) (ht : t.OfClass) (hk : t.kind = .newline) : ∀ d ∈ cs.head?, d = '\n' := by
  obtain ⟨u, v, hu, rfl⟩ := h.head
  have htext : t.text.toList = ['\n'] := by
    rw [Token.OfClass, hk] at ht
    exact List.mem_singleton.mp ht
  cases hu with
  | quoted hs => rw [hk] at hs; cases hs
  | plain =>
    rw [htext]
    intro d hd
    cases hd
    rfl

theorem lexes (h : Written ts cs) (hclass : ∀ t ∈ ts, t.OfClass) (hcomments : CommentsEndLines ts) : Lexes cs ts := by
  induction h with
  | nil => exact .nil
  | @one t u hu =>
    have hs : Spells u t := spells_of_ofClass (hclass _ (List.mem_singleton_self _)) hu
    have hl : Lexes (u ++ []) [t] := .spelled hs (fun d hd => by cases hd) (fun _ d hd => by cases hd) .nil
    rwa [List.append_nil] at hl
  | @spaced t t' ts u w v hu hk hne hw hv ih =>
    obtain ⟨ht, hts⟩ := List.forall_mem_cons.mp hclass
    have hrest : Lexes (w ++ v) (t' :: ts) := by
      refine .of_dropWhile ?_
      rw [List.dropWhile_eq_nil_iff.mpr hw]
      exact ih hts (List.isChain_cons_cons.mp hcomments).2
    refine .spelled (spells_of_ofClass ht hu) (fun d hd => .inl ?_) (fun h => absurd h hk) hrest
    cases w with
    | nil => exact absurd rfl hne
    | cons c w => cases hd; exact hw _ (List.mem_cons_self ..)
  | @comment t t' ts u v hu hk hv ih =>
    obtain ⟨ht, hts⟩ := List.forall_mem_cons.mp hclass
    obtain ⟨hnext, hchain⟩ := List.isChain_cons_cons.mp hcomments
    have hline := hv.head_newline (hts t' (List.mem_cons_self ..)) (hnext hk)
    exact .spelled (spells_of_ofClass ht hu) (fun d hd => .inr (hline d hd)) (fun _ => hline) (ih hts hchain)

/-- Tokens can be written with one space between them. -/
theorem exists_of_ofClass (hclass : ∀ t ∈ ts, t.OfClass) : ∃ cs, Written ts cs := by
  induction ts with
  | nil => exact ⟨[], .nil⟩
  | cons t ts ih =>
    obtain ⟨ht, hts⟩ := List.forall_mem_cons.mp hclass
    obtain ⟨u, hu⟩ := ht.exists_written
    cases ts with
    | nil => exact ⟨u, .one hu⟩
    | cons t' ts =>
      obtain ⟨v, hv⟩ := ih hts
      by_cases hk : t.kind = .comment
      · exact ⟨_, .comment hu hk hv⟩
      · exact ⟨_, .spaced (w := [' ']) hu hk nofun (by simp [isBlank]) hv⟩

end Written

theorem Lexes.items {text : String} {ts : List Token} (h : Lexes text.toList ts) :
    (Lexer.ofText text).items.map Prod.fst = ts.map .ok ++ [.ok Token.endOfText] := by
  obtain ⟨w, last, hw, -, -, hg⟩ := (Lexer.ofText text).exists_iterates rfl
  obtain ⟨rfl, hlast⟩ := hg.unique (h (Lexer.ofText text) rfl)
  rw [hw]
  cases last with
  | error fault => cases hlast
  | ok e => cases hlast; rfl

/-- Tokens of their classes can be written out, and a text in which they are gives these tokens,
    with the end after them and no fault. -/
theorem Lexer.items_written {ts : List Token} (hclass : ∀ t ∈ ts, t.OfClass) (hcomments : CommentsEndLines ts) :
    (∃ cs, Written ts cs) ∧ ∀ text : String, Written ts text.toList →
      (Lexer.ofText text).items.map Prod.fst = ts.map .ok ++ [.ok Token.endOfText] :=
  ⟨Written.exists_of_ofClass hclass, fun _ h => (h.lexes hclass hcomments).items⟩

/-- Two blanks between a name and a comment, and none between the comment and the line break. -/
theorem Lexer.items_written_comment : (Lexer.ofText "x \t# y\n").items.map Prod.fst =
    [.ok ⟨.name, "x"⟩, .ok ⟨.comment, "# y"⟩, .ok ⟨.newline, "\n"⟩, .ok Token.endOfText] := by
  have hclass : ∀ t ∈ [(⟨.name, "x"⟩ : Token), ⟨.comment, "# y"⟩, ⟨.newline, "\n"⟩], t.OfClass := by
    simp only [List.forall_mem_cons]
    refine ⟨⟨⟨'x', [], rfl, rfl, nofun⟩, by decide⟩, ?_, List.mem_singleton_self _, nofun⟩
    exact ⟨[' ', 'y'], rfl, by decide⟩
  have hcomments : CommentsEndLines [⟨.name, "x"⟩, ⟨.comment, "# y"⟩, ⟨.newline, "\n"⟩] := by
    simp [CommentsEndLines]
  have hname : Token.WrittenAs ⟨.name, "x"⟩ ['x'] := .plain (by decide)
  have hcomment : Token.WrittenAs ⟨.comment, "# y"⟩ ['#', ' ', 'y'] := .plain (by decide)
  have hnewline : Token.WrittenAs ⟨.newline, "\n"⟩ ['\n'] := .plain (by decide)
  refine (items_written hclass hcomments).2 _ ?_
  exact .spaced (w := [' ', '\t']) hname (by decide) nofun (by simp [isBlank]) (.comment hcomment rfl (.one hnewline))

end ScriptLang
