/-
  ScriptLang.Proofs.Lexer.Joining — texts joined by a line break.

  No token spans a line break but a string, and a string ends at its quote. So a lexeme that
  is a token stays as it is when a line break and more text come after it, and a text that
  lexes without a fault lexes to the same tokens in front of another.
  - `Lexeme.scan_joined`: one lexeme; a number, a comment or a word stops at the line break.
  - `Lexes.joined`: a whole text.
  - `parse_joined`: the programs of two texts, joined by a line break, are read one after the
    other.
-/

import ScriptLang.Proofs.Grammar.Layout
import ScriptLang.Proofs.Lexer.Classes

namespace ScriptLang

open Grammar
open Token (Kind)

/-- A text that goes on in a new line, or not at all. -/
def Broken (cs : List Char) : Prop := ∀ c ∈ cs.head?, c = '\n'

/-- A class without line breaks takes the same from the front. -/
theorem Broken.takeWhile {p : Char → Bool} {v : List Char} (hv : Broken v) (hp : p '\n' = false) (u : List Char) :
    (u ++ v).takeWhile p = u.takeWhile p ∧ (u ++ v).dropWhile p = u.dropWhile p ++ v := by
  induction u with
  | nil =>
    cases v with
    | nil => exact ⟨rfl, rfl⟩
    | cons c v => simp [hv c rfl, hp]
  | cons c u ih => by_cases hc : p c = true <;> simp [hc, ih]

namespace Lexeme

variable {c : Char} {cs v : List Char} {t : Token}

/-- The lexeme with `v` put after what is left. -/
def before (v : List Char) (l : Lexeme) : Lexeme := { l with rest := l.rest ++ v }

theorem scanPair_joined (hv : Broken v) {p : Pair} (hp : p.second ≠ '\n') (c : Char) (cs : List Char) :
    scanPair p c (cs ++ v) = (scanPair p c cs).before v := by
  cases cs with
  | cons d cs =>
    simp only [List.cons_append, scanPair]
    split
    · rfl
    · split <;> rfl
  | nil =>
    cases v with
    | nil => cases ha : p.alone <;> simp [scanPair, ha, before, ofToken, unexpected]
    | cons d v =>
      have hd : d ≠ p.second := fun he => hp (he ▸ hv d rfl)
      cases ha : p.alone <;> simp [scanPair, ha, hd, before, ofToken, unexpected]

theorem scanString_joined {quote : Char} (ht : (scanString quote cs).outcome = .ok t) (v : List Char) :
    scanString quote (cs ++ v) = (scanString quote cs).before v := by
  cases hd : cs.dropWhile (· != quote) with
  | nil =>
    simp only [scanString, hd] at ht
    cases ht
  | cons d rest =>
    have hdrop : (cs ++ v).dropWhile (· != quote) = d :: (rest ++ v) := by rw [List.dropWhile_append, hd]; rfl
    have htake : (cs ++ v).takeWhile (· != quote) = cs.takeWhile (· != quote) := by
      rw [List.takeWhile_append, if_neg]
      intro hl
      have := congrArg List.length (List.takeWhile_append_dropWhile (p := (· != quote)) (l := cs))
      rw [hd, List.length_append, hl] at this
      simp at this
    simp only [scanString, hdrop, htake, hd, before]

theorem slashGroup?_joined (hv : Broken v) (width : Nat) (cs : List Char) :
    slashGroup? width (cs ++ v) = (slashGroup? width cs).map fun (group, rest) => (group, rest ++ v) := by
  cases cs with
  | nil =>
    cases v with
    | nil => rfl
    | cons d v => rw [hv d rfl]; rfl
  | cons d cs =>
    obtain ⟨htake, hdrop⟩ := hv.takeWhile (p := Char.isDigit) rfl cs
    by_cases hd : d = '/'
    · simp only [hd, List.cons_append, slashGroup?, htake, hdrop]
      split <;> rfl
    · simp [slashGroup?, hd]

theorem dateTail?_joined (hv : Broken v) (cs : List Char) :
    dateTail? (cs ++ v) = (dateTail? cs).map fun (tail, rest) => (tail, rest ++ v) := by
  simp only [dateTail?, slashGroup?_joined hv, Option.bind_eq_bind]
  cases slashGroup? 2 cs with
  | none => rfl
  | some month =>
    simp only [Option.map_some, Option.bind_some, slashGroup?_joined hv]
    cases slashGroup? 4 month.2 <;> rfl

theorem fraction_joined (hv : Broken v) (cs : List Char) :
    fraction (cs ++ v) = ((fraction cs).1, (fraction cs).2 ++ v) := by
  cases cs with
  | nil =>
    cases v with
    | nil => rfl
    | cons d v => rw [hv d rfl]; rfl
  | cons c cs =>
    by_cases hc : c = '.'
    · subst hc
      cases cs with
      | nil =>
        cases v with
        | nil => rfl
        | cons d v => rw [hv d rfl]; rfl
      | cons d cs =>
        obtain ⟨htake, hdrop⟩ := hv.takeWhile (p := Char.isDigit) rfl cs
        simp only [List.cons_append, fraction, htake, hdrop]
        split <;> rfl
    · simp [fraction, hc]

theorem scanNumber_joined (hv : Broken v) (c : Char) (cs : List Char) :
    scanNumber c (cs ++ v) = (scanNumber c cs).before v := by
  obtain ⟨htake, hdrop⟩ := hv.takeWhile (p := Char.isDigit) rfl cs
  simp only [scanNumber, htake, hdrop, dateTail?_joined hv, fraction_joined hv]
  by_cases hl : (c :: cs.takeWhile Char.isDigit).length = 2
  · simp only [if_pos hl]
    cases dateTail? (cs.dropWhile Char.isDigit) <;> rfl
  · simp only [if_neg hl]
    rfl

/-- A lexeme that is a token does not grow, whatever comes in the next line. -/
theorem scan_joined (hv : Broken v) (ht : (scan c cs).outcome = .ok t) : scan c (cs ++ v) = (scan c cs).before v := by
  unfold scan at ht ⊢
  split
  · rfl
  rename_i hm
  split
  · rename_i p hp
    refine scanPair_joined hv ?_ c cs
    unfold pair? at hp
    split at hp <;> cases hp <;> decide
  rename_i hp
  simp only [hm, hp] at ht
  split
  · obtain ⟨htake, hdrop⟩ := hv.takeWhile (p := (· != '\n')) rfl cs
    simp only [scanComment, htake, hdrop]
    rfl
  rename_i hc
  rw [if_neg hc] at ht
  split
  · rename_i hq
    rw [if_pos hq] at ht
    exact scanString_joined ht v
  split
  · exact scanNumber_joined hv c cs
  split
  · obtain ⟨htake, hdrop⟩ := hv.takeWhile (p := continuesName) rfl cs
    simp only [scanWord, htake, hdrop]
    rfl
  · rfl

end Lexeme

/-! ## Texts -/

variable {l l' : Lexer} {cs v : List Char} {w us : List Token} {t : Token}

/-- Blanks in front of a text make no tokens. -/
theorem Lexes.of_dropWhile (h : Lexes (cs.dropWhile Lexeme.isBlank ++ v) us) : Lexes (cs ++ v) us := by
  induction cs with
  | nil => exact h
  | cons c cs ih =>
    by_cases hc : Lexeme.isBlank c = true
    · rw [List.dropWhile_cons_of_pos hc] at h
      exact .blank hc (ih h)
    · rwa [List.dropWhile_cons_of_neg hc] at h

/-- A text that lexes up to its end still does before a text that starts in a new line. -/
theorem Lexes.joined {e : Token} (h : Gives Lexer.pull l w (.ok e)) (hv : Broken v) (hu : Lexes v us) :
    Lexes (l.rest ++ v) (w ++ us) := by
  generalize hr : Except.ok e = r at h
  induction h with
  | final hp hf =>
    subst hr
    rcases Lexer.pull_ok hp with ⟨-, hd⟩ | ⟨c, cs, -, -, ht, -⟩
    · exact .of_dropWhile (hd ▸ hu)
    · exact absurd (beq_iff_eq.mp hf) (Lexeme.scan_ofClass ht).kind_ne.1
  | token hp hk _ ih =>
    rcases Lexer.pull_ok hp with ⟨he, -⟩ | ⟨c, cs, hd, hc, ht, hrest⟩
    · exact absurd he hk
    · have hs := Lexeme.scan_joined hv ht
      refine .of_dropWhile (?_ : Lexes _ (_ :: (_ ++ us)))
      rw [hd, List.cons_append]
      refine .lexeme hc (by rw [hs]; exact ht) hk ?_
      rw [hs, Lexeme.before, ← hrest]
      exact ih hr

/-- A text that is read as a program lexes to tokens that derive it. -/
theorem lexes_of_parse {text : String} {b : Scope} (h : parse text = .ok b) : ∃ w e, Program w b ∧
    Gives Lexer.pull (Lexer.ofText text) w (.ok e) := by
  obtain ⟨w, last, hg⟩ := (Lexer.ofText text).exists_gives
  have hd := Lookahead.parse_derives (s := Lookahead.ofSource (Lexer.ofText text)) hg
  rw [show (Lookahead.ofSource (Lexer.ofText text)).parse.1 = .ok b from h] at hd
  obtain ⟨hb, e, rfl⟩ := hd
  exact ⟨w, e, hb, hg⟩

/-- The programs of two texts with a line break between them follow each other. -/
theorem parse_joined {text text' : String} {b b' : Scope} (h : parse text = .ok b) (h' : parse text' = .ok b') :
    parse (text ++ "\n" ++ text') = .ok (b ++ b') := by
  obtain ⟨w, e, hb, hg⟩ := lexes_of_parse h
  obtain ⟨w', e', hb', hg'⟩ := lexes_of_parse h'
  have second : Lexes text'.toList w' := by
    have := Lexes.joined hg' (v := []) nofun .nil
    rwa [List.append_nil, List.append_nil] at this
  have both : Lexes (text.toList ++ '\n' :: text'.toList) (w ++ ⟨.newline, "\n"⟩ :: w') :=
    .joined hg (fun c hc => by cases hc; rfl) (.mark rfl second)
  have text_eq : text ++ "\n" ++ text' = String.ofList (text.toList ++ '\n' :: text'.toList) := by
    refine String.toList_inj.mp ?_
    simp
  rw [text_eq]
  exact parse_of_lexes both (hb.append rfl hb')

/-- The search for an `else` of the conditional goes past the comment, and finds a name. -/
theorem parse_joined_conditional : parse "if a \x7b\x7d" = .ok [.ifThen (.var "a") []] ∧
    parse "# else\nb" = .ok [.expression (.var "b")] ∧
    parse ("if a \x7b\x7d" ++ "\n" ++ "# else\nb") = .ok [.ifThen (.var "a") [], .expression (.var "b")] := by
  have conditional : Lexes "if a \x7b\x7d".toList
      [⟨.ifWord, "if"⟩, ⟨.name, "a"⟩, ⟨.openBrace, "\x7b"⟩, ⟨.closeBrace, "\x7d"⟩] :=
    @Lexes.word _ ['f'] _ _ rfl (List.forall_mem_singleton.mpr rfl) (fun d hd => by cases hd; rfl) (.blank rfl
      (@Lexes.word _ [] _ _ rfl nofun (fun d hd => by cases hd; rfl) (.blank rfl (.mark rfl (.mark rfl .nil)))))
  have commented : Lexes "# else\nb".toList [⟨.comment, "# else"⟩, ⟨.newline, "\n"⟩, ⟨.name, "b"⟩] :=
    .lexeme rfl rfl nofun (.mark rfl (@Lexes.word _ [] _ _ rfl nofun nofun .nil))
  have a : Expression [⟨.name, "a"⟩, ⟨.openBrace, "\x7b"⟩, ⟨.closeBrace, "\x7d"⟩] (.var "a") _ :=
    .chain (.var ⟨rfl, by decide⟩) .nil .operand
  have b : Expression [⟨.name, "b"⟩] (.var "b") [] := .chain (.var ⟨rfl, by decide⟩) .nil .operand
  have first : parse "if a \x7b\x7d" = .ok [.ifThen (.var "a") []] :=
    parse_of_lexes conditional (.cons (.ifThen rfl a (.braces rfl .nil rfl)) .nil .nil)
  have second : parse "# else\nb" = .ok [.expression (.var "b")] :=
    parse_of_lexes commented (.skip rfl (.skip rfl (.cons (.expression b) .nil .nil)))
  exact ⟨first, second, parse_joined first second⟩

end ScriptLang
