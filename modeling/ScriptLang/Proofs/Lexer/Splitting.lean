/-
  ScriptLang.Proofs.Lexer.Splitting — a lexer splits a text into blanks and lexemes.

  `Fits t u v`: `u` in front of `v` can be a lexeme of the token `t`. `Split`: a text is blanks
  and the lexeme of each result, one after the other, and nothing else.
  - `Fits.stops`: what comes after the longest lexeme of a token does not go on with it.
  - `Lexeme.piece`: the lexeme of a token is the longest of any, and there is a fault only where
    no token fits.
  - `Lexer.results_split`: a lexer that goes on after faults splits the whole text.
-/

import ScriptLang.Proofs.Lexer.Classes

namespace ScriptLang

open Lexeme
open Token (Kind)

/-- What a lexer gives, on after faults, up to and with the end token. -/
def Lexer.results (l : Lexer) : List (Except LexicalFault Token) :=
  match _found : l.next with
  | (.ok t, after) => if t = Token.endOfText then [.ok t] else .ok t :: results after
  | (.error fault, after) => .error fault :: results after
termination_by l.rest.length
decreasing_by
  all_goals
    have shorter := next_rest_length_lt (l := l)
    rw [_found] at shorter
    refine shorter fun he => ?_
    cases he
  exact absurd rfl ‹_›

theorem Lexer.results_ended {l : Lexer} (h : l.next.1 = .ok Token.endOfText) : l.results = [.ok Token.endOfText] := by
  rw [results]
  split
  · rename_i t after hn
    rw [hn] at h
    cases h
    exact if_pos rfl
  · rename_i fault after hn
    rw [hn] at h
    cases h

theorem Lexer.results_more {l : Lexer} (h : l.next.1 ≠ .ok Token.endOfText) : l.results = l.next.1 :: l.next.2.results := by
  rw [results]
  split
  · rename_i t after hn
    rw [hn] at h ⊢
    exact if_neg fun he => h (congrArg _ he)
  · rename_i fault after hn
    rw [hn]

/-! ## Lexemes in a text -/

/-- A token of its class, as it is written. A date with a fifth digit in its year is none. -/
structure Fits (t : Token) (u v : List Char) : Prop where
  ofClass : t.OfClass
  written : t.WrittenAs u
  whole : t.kind = .date → ∀ d ∈ v.head?, d.isDigit = false

/-- No token has a lexeme with more of the text than `u`, where `v` follows it. -/
def Longest (u v : List Char) : Prop := ∀ t x y, u ++ v = x ++ y → Fits t x y → x.length ≤ u.length

/-- What comes after a lexeme is nothing that would go on with it. -/
structure Stops (t : Token) (u v : List Char) : Prop where
  word : t.kind = .name ∨ u ∈ keywords.map Prod.fst → ∀ d ∈ v.head?, continuesName d = false
  number : t.kind = .number ∨ t.kind = .date → ∀ d ∈ v.head?, d.isDigit = false
  fraction : t.kind = .number → '.' ∉ u → ∀ d v', v = '.' :: d :: v' → d.isDigit = false
  comment : t.kind = .comment → ∀ d ∈ v.head?, d = '\n'
  pair : t.kind ∈ [.bang, .assign, .less, .greater] → ∀ d ∈ v.head?, d ≠ '='

/-- The lexeme `u` of a result, in front of `v`. -/
inductive Piece : Except LexicalFault Token → List Char → List Char → Prop
  | token {t : Token} {u v : List Char} : Fits t u v → Longest u v → Stops t u v → Piece (.ok t) u v
  | unexpected {c : Char} {v : List Char} {line : Nat} : isBlank c = false → isQuote c = false →
      (∀ t x y, c :: v = x ++ y → ¬ Fits t x y) → Piece (.error ⟨.unexpectedCharacter c, line⟩) [c] v
  /-- A quote that no second one follows, and all the text after it. -/
  | unterminated {q : Char} {body : List Char} {line : Nat} : isQuote q = true → q ∉ body →
      Piece (.error ⟨.unterminatedString, line⟩) (q :: body) []

/-- The text is blanks and the lexemes of these results, in this order, and blanks at its end. -/
inductive Split : List Char → List (Except LexicalFault Token) → Prop
  | ended {w : List Char} : (∀ c ∈ w, isBlank c = true) → Split w [.ok Token.endOfText]
  | lexeme {w u v : List Char} {r : Except LexicalFault Token} {rs : List (Except LexicalFault Token)} :
      (∀ c ∈ w, isBlank c = true) → Piece r u v → Split v rs → Split (w ++ (u ++ v)) (r :: rs)

/-! ## The longest lexeme -/

namespace Fits

variable {t : Token} {u v : List Char}

/-- The longest lexeme is not also one with more of the text. -/
theorem ne_append (longest : Longest u v) {p v' : List Char} (hs : Spells (u ++ p) t) (hk : t.kind ≠ .date)
    (hp : p ≠ []) : v ≠ p ++ v' := by
  intro hv
  have hle := longest t (u ++ p) v' (by rw [hv, List.append_assoc]) ⟨hs.ofClass.1, hs.ofClass.2, fun h => absurd h hk⟩
  rw [List.length_append] at hle
  have := List.length_pos_iff.mpr hp
  omega

theorem written_text (h : Fits t u v) (hk : t.kind ≠ .string) : t.text.toList = u := by
  cases h.written with
  | plain => rfl
  | quoted hs => exact absurd hs hk

theorem word (h : Fits t u v) (hw : t.kind = .name ∨ u ∈ keywords.map Prod.fst) :
    ∃ c cs, u = c :: cs ∧ startsName c = true ∧ ∀ d ∈ cs, continuesName d = true := by
  rcases hw with hk | hk
  · have hn := h.ofClass
    rw [Token.OfClass, hk] at hn
    rw [← h.written_text (by rw [hk]; decide)]
    exact hn.identifier
  · obtain ⟨p, hp, rfl⟩ := List.mem_map.mp hk
    exact keyword_letters hp

/-- A digit after a number makes a longer one, and so does a point before a digit. -/
theorem number_longer (h : Fits t u v) (hk : t.kind = .number) {d : Char} (hd : d.isDigit = true) :
    Spells (u ++ [d]) ⟨.number, String.ofList (u ++ [d])⟩ ∧
      ('.' ∉ u → Spells (u ++ ['.', d]) ⟨.number, String.ofList (u ++ ['.', d])⟩) := by
  have hclass := h.ofClass
  rw [Token.OfClass, hk] at hclass
  obtain ⟨⟨whole, frac⟩, hp, htext⟩ := hclass
  rw [h.written_text (by rw [hk]; decide)] at htext
  subst htext
  have hfrac : ∀ e ∈ frac ++ [d], e.isDigit = true :=
    List.forall_mem_append.mpr ⟨hp.fraction, List.forall_mem_singleton.mpr hd⟩
  have hwhole : ∀ e ∈ whole ++ [d], e.isDigit = true :=
    List.forall_mem_append.mpr ⟨hp.whole, List.forall_mem_singleton.mpr hd⟩
  have hnil : whole ++ [d] ≠ [] := by simp
  cases frac with
  | nil =>
    have more : Digits (whole ++ [d], []) := ⟨hnil, hwhole, fun _ hd => absurd hd List.not_mem_nil⟩
    have pointed : Digits (whole, [d]) := ⟨hp.whole_ne_nil, hp.whole, hfrac⟩
    exact ⟨.number more, fun _ => .number pointed⟩
  | cons e frac =>
    have more : Digits (whole, e :: frac ++ [d]) := ⟨hp.whole_ne_nil, hp.whole, hfrac⟩
    have hm := Spells.number more
    have htext : Double.pointed (whole, e :: frac ++ [d]) = Double.pointed (whole, e :: frac) ++ [d] := by
      simp [Double.pointed]
    rw [htext] at hm
    exact ⟨hm, fun hno => absurd (by simp [Double.pointed]) hno⟩

-- A character that went on with the lexeme would make a longer one, of a token that may be
-- another: a keyword becomes a name, a mark its pair.
theorem stops (h : Fits t u v) (longest : Longest u v) : Stops t u v where
  word hw d hd := by
    obtain ⟨c, cs, rfl, hc, hcs⟩ := h.word hw
    obtain ⟨v', rfl⟩ := List.head?_eq_some_iff.mp hd
    refine Bool.eq_false_iff.mpr fun hcont => ?_
    have hs : Spells (c :: cs ++ [d]) _ :=
      .word hc (List.forall_mem_append.mpr ⟨hcs, List.forall_mem_singleton.mpr hcont⟩)
    exact ne_append longest hs (wordKind_ne_date _) (List.cons_ne_nil _ _) rfl
  number hk d hd := by
    rcases hk with hk | hk
    · obtain ⟨v', rfl⟩ := List.head?_eq_some_iff.mp hd
      refine Bool.eq_false_iff.mpr fun hdigit => ?_
      exact ne_append longest (h.number_longer hk hdigit).1 (fun he => by cases he) (List.cons_ne_nil _ _) rfl
    · exact h.whole hk d hd
  fraction hk hu d v' hv := by
    refine Bool.eq_false_iff.mpr fun hdigit => ?_
    exact ne_append longest ((h.number_longer hk hdigit).2 hu) (fun he => by cases he) (List.cons_ne_nil _ _) hv
  comment hk d hd := by
    obtain ⟨v', rfl⟩ := List.head?_eq_some_iff.mp hd
    have hclass := h.ofClass
    rw [Token.OfClass, hk] at hclass
    obtain ⟨cs, htext, hn⟩ := hclass
    rw [h.written_text (by rw [hk]; decide)] at htext
    subst htext
    refine Decidable.byContradiction fun hne => ?_
    have hs : Spells ('#' :: (cs ++ [d])) _ := .comment (by simp [hn, Ne.symm hne])
    exact ne_append longest hs (fun he => by cases he) (List.cons_ne_nil _ _) rfl
  pair hk d hd he := by
    obtain ⟨v', rfl⟩ := List.head?_eq_some_iff.mp hd
    subst he
    have two : ∀ k ∈ [Kind.bang, .assign, .less, .greater], k ≠ .string ∧ ∀ u ∈ k.spellings,
        ∃ k' ∈ [Kind.notEqual, .equal, .lessEqual, .greaterEqual], u ++ ['='] ∈ k'.spellings := by decide
    have one : t.text.toList ∈ t.kind.spellings := by
      have hclass := h.ofClass
      unfold Token.OfClass at hclass
      split at hclass
      case h_6 => exact hclass
      all_goals simp [*] at hk
    obtain ⟨hstring, htwo⟩ := two t.kind hk
    obtain ⟨k', hk', hu⟩ := htwo u (h.written_text hstring ▸ one)
    refine ne_append longest (spells_of_spelling hu) (fun he => ?_) (List.cons_ne_nil _ _) rfl
    obtain rfl : k' = .date := he
    simp at hk'

end Fits

/-! ## Lexemes and texts -/

/-- The lexeme at the front of a text, whatever its outcome. -/
theorem Lexeme.piece {c : Char} {cs : List Char} (hc : isBlank c = false) (line : Nat) :
    Piece ((scan c cs).outcome.mapError fun cause => ⟨cause, line⟩) (scan c cs).taken (scan c cs).rest := by
  have hall := taken_append_rest c cs
  have longer {t' : Token} {x y : List Char} (hxy : c :: cs = x ++ y) (hf : Fits t' x y) :
      x.length ≤ (scan c cs).taken.length ∧ ∃ t, (scan c cs).outcome = .ok t := by
    have hs := spells_of_ofClass hf.ofClass hf.written
    cases x with
    | nil => exact absurd rfl hs.ne_nil
    | cons d x =>
      obtain ⟨rfl, rfl⟩ := List.cons.inj hxy
      exact le_scan hs hf.whole
  cases ho : (scan c cs).outcome with
  | ok t =>
    have hf : Fits t (scan c cs).taken (scan c cs).rest :=
      ⟨(scan_spells ho).ofClass.1, (scan_spells ho).ofClass.2, scan_date ho⟩
    have longest : Longest (scan c cs).taken (scan c cs).rest := fun t' x y hxy hx =>
      (longer (hall.symm.trans hxy) hx).1
    exact .token hf longest (hf.stops longest)
  | error cause =>
    rcases scan_error ho with ⟨hq, rfl, htaken⟩ | ⟨hq, rfl, hbody, htaken⟩
    · rw [htaken] at hall ⊢
      obtain ⟨-, hrest⟩ := List.cons.inj hall
      -- Where a token fits, one is scanned.
      refine .unexpected hc hq fun t x y hxy hx => ?_
      rw [show (scan c cs).rest = cs from hrest] at hxy
      obtain ⟨-, t', ht'⟩ := longer hxy hx
      rw [ho] at ht'
      cases ht'
    · rw [htaken] at hall ⊢
      rw [List.append_cancel_left (hall.trans (List.append_nil _).symm)]
      exact .unterminated hq hbody

namespace Lexer

/-- A lexer splits what is left of its text. -/
theorem split_rest (l : Lexer) : Split l.rest l.results := by
  induction hn : l.rest.length using Nat.strongRecOn generalizing l with
  | ind n ih =>
    have hblank := List.takeWhile_append_dropWhile (p := isBlank) (l := l.rest)
    have hw : ∀ c ∈ l.rest.takeWhile isBlank, isBlank c = true := List.all_eq_true.mp List.all_takeWhile
    cases hr : l.rest.dropWhile isBlank with
    | nil =>
      have hend : l.next.1 = .ok Token.endOfText := by simp only [next, hr]
      rw [hr, List.append_nil] at hblank
      rw [results_ended hend]
      exact .ended (hblank ▸ hw)
    | cons c cs =>
      have hc : isBlank c = false := dropWhile_head l.rest c (by rw [hr]; rfl)
      have hresult : l.next.1 = (scan c cs).outcome.mapError fun cause => ⟨cause, l.line⟩ := by
        simp only [next, hr]
      have hrest : l.next.2.rest = (scan c cs).rest := by simp only [next, hr]
      have hmore : l.next.1 ≠ .ok Token.endOfText := by
        rw [hresult]
        cases ho : (scan c cs).outcome with
        | error cause => exact fun he => by cases he
        | ok t => exact fun he => (scan_ofClass ho).kind_ne.1 (by cases he; rfl)
      -- A fault has a lexeme too, so what is left is shorter either way.
      have hnext := ih _ (hn ▸ next_rest_length_lt hmore) l.next.2 rfl
      rw [hrest] at hnext
      rw [results_more hmore, hresult, ← hblank, hr, ← taken_append_rest c cs]
      exact .lexeme hw (piece hc l.line) hnext

/-- A text is blanks and, in the order of its results, their lexemes. -/
theorem results_split (text : String) : Split text.toList (ofText text).results := (ofText text).split_rest

end Lexer

end ScriptLang
