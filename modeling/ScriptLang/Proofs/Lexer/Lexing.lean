/-
  ScriptLang.Proofs.Lexer.Lexing — texts and the tokens that they lex to.

  `Lexes cs ts`: a lexer with `cs` left gives the tokens `ts` and then the end. One lemma for
  each sort of lexeme puts a token in front; a word, a number or an operator must not be
  followed by a character that would make it longer.
-/

import ScriptLang.Proofs.Number.Written
import ScriptLang.Stream.Basic

namespace ScriptLang

open Lexeme
open Token (Kind)

/-- The text lexes to these tokens, up to its end. -/
def Lexes (cs : List Char) (ts : List Token) : Prop :=
  ∀ l : Lexer, l.rest = cs → Gives Lexer.pull l ts (.ok Token.endOfText)

/-- What may follow a word or a number: nothing that would belong to it. -/
def Apart (rest : List Char) : Prop := ∀ c ∈ rest.head?, continuesName c = false ∧ c ≠ '.' ∧ c ≠ '/'

theorem Apart.cons {c : Char} {cs : List Char} (h : continuesName c = false ∧ c ≠ '.' ∧ c ≠ '/') : Apart (c :: cs) :=
  fun _ hd => by cases hd; exact h

theorem continuesName_digit {c : Char} (h : c.isDigit = true) : continuesName c = true := by
  simp [continuesName, Char.isAlphanum, h]

theorem Apart.not_digit {rest : List Char} (h : Apart rest) : ∀ c ∈ rest.head?, c.isDigit = false := by
  intro c hc
  have hw := (h c hc).1
  refine Bool.eq_false_iff.mpr ?_
  intro hd
  rw [continuesName_digit hd] at hw
  cases hw

theorem continuesName_start {c : Char} (h : startsName c = true) : continuesName c = true := by
  simp only [startsName, continuesName, Char.isAlphanum, Bool.or_eq_true] at h ⊢
  exact h.imp_left .inl

namespace Lexes

variable {c : Char} {cs rest : List Char} {t : Token} {ts : List Token} {k : Kind} {p : Pair}

theorem nil : Lexes [] [] := by
  intro l hl
  refine .final (?_ : Lexer.pull l = (_, { l with rest := [] })) rfl
  have hn : l.next = (.ok Token.endOfText, { l with rest := [] }) := by simp [Lexer.next, hl]
  rw [Lexer.pull, hn]
  rfl

theorem blank (hc : isBlank c = true) (h : Lexes cs ts) : Lexes (c :: cs) ts := by
  intro l hl
  have hpull : Lexer.pull l = Lexer.pull { l with rest := cs } := by
    simp only [Lexer.pull, Lexer.next, hl, List.dropWhile_cons, hc, if_true]
  have hg := h { l with rest := cs } rfl
  cases hg with
  | final hp hf => exact .final (hpull ▸ hp) hf
  | token hp hk hg => exact .token (hpull ▸ hp) hk hg

theorem lexeme (hc : isBlank c = false) (ht : (scan c cs).outcome = .ok t) (hk : t.kind ≠ .endOfText)
    (h : Lexes (scan c cs).rest ts) : Lexes (c :: cs) (t :: ts) := by
  intro l hl
  refine .token (?_ : Lexer.pull l = (_, l.next.2)) hk (h _ ?_)
  · have hn : l.next.1 = .ok t := by
      simp [Lexer.next, hl, hc, ht]
      rfl
    rw [Lexer.pull, hn]
    rfl
  · simp [Lexer.next, hl, hc]

theorem mark (hc : mark? c = some k) (h : Lexes cs ts) : Lexes (c :: cs) (⟨k, String.ofList [c]⟩ :: ts) := by
  have hs : scan c cs = ofToken k [c] cs := by simp only [scan, hc]
  refine lexeme ?_ (by rw [hs]; rfl) ?_ (by rw [hs]; exact h)
  all_goals
    unfold mark? at hc
    split at hc <;> cases hc <;> decide

theorem scan_pair (cs : List Char) (hc : pair? c = some p) : scan c cs = scanPair p c cs ∧ isBlank c = false := by
  have hm : mark? c = none ∧ isBlank c = false := by
    unfold pair? at hc
    split at hc <;> cases hc <;> decide
  exact ⟨by simp only [scan, hm.1, hc], hm.2⟩

theorem together (hc : pair? c = some p) (h : Lexes cs ts) :
    Lexes (c :: p.second :: cs) (⟨p.together, String.ofList [c, p.second]⟩ :: ts) := by
  obtain ⟨hs, hb⟩ := scan_pair (p.second :: cs) hc
  have hp : scanPair p c (p.second :: cs) = ofToken p.together [c, p.second] cs := by simp [scanPair]
  refine lexeme hb (by rw [hs, hp]; rfl) ?_ (by rw [hs, hp]; exact h)
  unfold pair? at hc
  split at hc <;> cases hc <;> decide

theorem alone (hc : pair? c = some p) (hk : p.alone = some k) (hn : ∀ d ∈ cs.head?, d ≠ p.second) (h : Lexes cs ts) :
    Lexes (c :: cs) (⟨k, String.ofList [c]⟩ :: ts) := by
  obtain ⟨hs, hb⟩ := scan_pair cs hc
  have hp : scanPair p c cs = ofToken k [c] cs := by
    unfold scanPair
    cases cs with
    | nil => simp [hk]
    | cons d cs => simp [hk, hn d rfl]
  refine lexeme hb (by rw [hs, hp]; rfl) ?_ (by rw [hs, hp]; exact h)
  unfold pair? at hc
  split at hc <;> cases hc <;> cases hk <;> decide

/-- What continues a word starts no mark, pair, comment or string, and is no blank. -/
theorem scan_continuesName (cs : List Char) (h : continuesName c = true) : isBlank c = false ∧
    scan c cs = if c.isDigit then scanNumber c cs else if startsName c then scanWord c cs else unexpected c cs := by
  have hne (d : Char) (hd : continuesName d = false) : c ≠ d := fun he => by rw [he, hd] at h; cases h
  have hm : mark? c = none := by
    unfold mark?
    split <;> first | rfl | exact absurd rfl (hne _ rfl)
  have hp : pair? c = none := by
    unfold pair?
    split <;> first | rfl | exact absurd rfl (hne _ rfl)
  have hq : isQuote c = false := by simp [isQuote, hne '"' rfl, hne '\'' rfl]
  refine ⟨by simp [isBlank, hne ' ' rfl, hne '\t' rfl, hne '\r' rfl], ?_⟩
  simp only [scan, hm, hp, if_neg (hne '#' rfl), hq, Bool.false_eq_true, if_false]

theorem not_digit_of_startsName (h : startsName c = true) : c.isDigit = false := by
  refine Bool.eq_false_iff.mpr ?_
  intro hd
  have halpha : c.isAlpha = (decide (c.val ≥ 65 ∧ c.val ≤ 90) || decide (c.val ≥ 97) && decide (c.val ≤ 122)) := rfl
  simp only [startsName, halpha, Char.isDigit, Bool.or_eq_true, Bool.and_eq_true, decide_eq_true_eq, beq_iff_eq] at h hd
  rcases h with (h | h) | rfl
  · exact absurd (UInt32.le_trans h.1 hd.2) (by decide)
  · exact absurd (UInt32.le_trans h.1 hd.2) (by decide)
  · exact absurd hd.2 (by decide)

theorem wordKind_ne (word : List Char) : wordKind word ≠ .endOfText := by
  unfold wordKind
  cases h : keywords.lookup word with
  | none => decide
  | some k =>
    have hk : ∀ p ∈ keywords, p.2 ≠ .endOfText := by decide
    obtain ⟨l₁, l₂, hl, -⟩ := List.lookup_eq_some_iff.mp h
    exact hk (word, k) (by rw [hl]; simp)

theorem word (hc : startsName c = true) (hw : ∀ d ∈ cs, continuesName d = true)
    (hr : ∀ d ∈ rest.head?, continuesName d = false) (h : Lexes rest ts) :
    Lexes (c :: (cs ++ rest)) (⟨wordKind (c :: cs), String.ofList (c :: cs)⟩ :: ts) := by
  obtain ⟨hb, hs⟩ := scan_continuesName (cs ++ rest) (continuesName_start hc)
  rw [if_neg (by simp [not_digit_of_startsName hc]), if_pos hc] at hs
  obtain ⟨htake, hdrop⟩ := takeWhile_run hw hr
  rw [scanWord, htake, hdrop] at hs
  exact lexeme hb (by rw [hs]; rfl) (wordKind_ne _) (by rw [hs]; exact h)

theorem scan_string {q : Char} {body : List Char} (hq : isQuote q = true) (hb : q ∉ body) : isBlank q = false ∧
    scan q (body ++ q :: rest) = ⟨q :: (body ++ [q]), rest, .ok ⟨.string, String.ofList body⟩⟩ := by
  have hplain : mark? q = none ∧ pair? q = none ∧ q ≠ '#' ∧ isBlank q = false := by
    simp only [isQuote, Bool.or_eq_true, beq_iff_eq] at hq
    rcases hq with rfl | rfl <;> decide
  obtain ⟨htake, hdrop⟩ := takeWhile_run (p := (· != q)) (u := body) (v := q :: rest)
    (fun c hc => bne_iff_ne.mpr fun he => hb (he ▸ hc)) (fun c hc => by cases hc; simp)
  refine ⟨hplain.2.2.2, ?_⟩
  simp only [scan, hplain.1, hplain.2.1, if_neg hplain.2.2.1, hq, if_true, scanString, htake, hdrop]

theorem string {q : Char} {body : List Char} (hq : isQuote q = true) (hb : q ∉ body) (h : Lexes rest ts) :
    Lexes (q :: (body ++ q :: rest)) (⟨.string, String.ofList body⟩ :: ts) := by
  obtain ⟨hblank, hs⟩ : _ ∧ scan q (body ++ q :: rest) = _ := scan_string hq hb
  exact lexeme hblank (by rw [hs]) nofun (by rw [hs]; exact h)

theorem scan_digit (cs : List Char) (hd : c.isDigit = true) : isBlank c = false ∧ scan c cs = scanNumber c cs := by
  obtain ⟨hb, hs⟩ := scan_continuesName cs (continuesName_digit hd)
  exact ⟨hb, by rw [hs, if_pos hd]⟩

theorem dateTail?_of_head (h : ∀ c ∈ cs.head?, c ≠ '/') : dateTail? cs = none := by
  have hg : slashGroup? 2 cs = none := by
    unfold slashGroup?
    split
    · exact absurd rfl (h '/' rfl)
    · rfl
  simp [dateTail?, hg]

theorem fraction_apart (h : Apart rest) : fraction rest = ([], rest) := by
  unfold fraction
  split
  · exact absurd rfl (h '.' rfl).2.1
  · rfl

theorem fraction_digits {ds : List Char} (hne : ds ≠ []) (hd : ∀ c ∈ ds, c.isDigit = true)
    (hr : ∀ c ∈ rest.head?, c.isDigit = false) : fraction ('.' :: (ds ++ rest)) = ('.' :: ds, rest) := by
  cases ds with
  | nil => exact absurd rfl hne
  | cons d ds =>
    obtain ⟨htake, hdrop⟩ := takeWhile_run (fun c hc => hd c (List.mem_cons_of_mem _ hc)) hr
    simp only [List.cons_append, fraction, hd d (List.mem_cons_self ..), if_true, htake, hdrop]

/-- The whole digits come first; the point and the fraction, if there is one, are taken after them. -/
theorem number {parts : List Char × List Char} (hp : Digits parts) (hr : Apart rest) (h : Lexes rest ts) :
    Lexes (Double.pointed parts ++ rest) (⟨.number, String.ofList (Double.pointed parts)⟩ :: ts) := by
  obtain ⟨whole, frac⟩ := parts
  cases whole with
  | nil => exact absurd rfl hp.whole_ne_nil
  | cons c whole =>
    obtain ⟨after, htext, hhead, htaken, hrest⟩ : ∃ after, Double.pointed (c :: whole, frac) ++ rest = c :: (whole ++ after) ∧
        (∀ d ∈ after.head?, d.isDigit = false ∧ d ≠ '/') ∧
        c :: whole ++ (fraction after).1 = Double.pointed (c :: whole, frac) ∧ (fraction after).2 = rest := by
      by_cases hf : frac = []
      · refine ⟨rest, ?_, fun d hd => ⟨hr.not_digit d hd, (hr d hd).2.2⟩, ?_⟩
        · simp [Double.pointed, hf]
        · simp [Double.pointed, hf, fraction_apart hr]
      · refine ⟨'.' :: (frac ++ rest), ?_, fun d hd => by cases hd; decide, ?_⟩
        · simp [Double.pointed, hf]
        · simp [Double.pointed, hf, fraction_digits hf hp.fraction hr.not_digit]
    obtain ⟨htake, hdrop⟩ := takeWhile_run (u := whole) (fun d hd => hp.whole d (List.mem_cons_of_mem _ hd))
      fun d hd => (hhead d hd).1
    have hs : scan c (whole ++ after) = ofToken .number (Double.pointed (c :: whole, frac)) rest := by
      rw [(scan_digit _ (hp.whole c (by simp))).2, scanNumber, htake, hdrop, dateTail?_of_head fun d hd => (hhead d hd).2]
      simp only [ite_self, htaken, hrest]
    rw [htext]
    exact lexeme (scan_digit [] (hp.whole c (by simp))).1 (by rw [hs]; rfl) nofun (by rw [hs]; exact h)

theorem slashGroup?_run (width : Nat) {ds : List Char} (hd : ∀ c ∈ ds, c.isDigit = true)
    (hr : ∀ c ∈ rest.head?, c.isDigit = false) :
    slashGroup? width ('/' :: (ds ++ rest)) = if ds.length = width then some ('/' :: ds, rest) else none := by
  obtain ⟨htake, hdrop⟩ := takeWhile_run hd hr
  simp only [slashGroup?, htake, hdrop]

/-- A date is taken whole, if its year is not followed by a fifth digit. -/
theorem scan_date {day month year : List Char} (hl : day.length = 2 ∧ month.length = 2 ∧ year.length = 4)
    (hd : ∀ c ∈ day ++ month ++ year, c.isDigit = true) (hr : ∀ c ∈ rest.head?, c.isDigit = false) :
    ∃ c cs, day ++ '/' :: (month ++ '/' :: (year ++ rest)) = c :: cs ∧ isBlank c = false ∧
      scan c cs = ofToken .date (day ++ '/' :: (month ++ '/' :: year)) rest := by
  obtain ⟨c, d, rfl⟩ : ∃ c d, day = [c, d] := by
    match day, hl.1 with
    | [c, d], _ => exact ⟨c, d, rfl⟩
  simp only [List.mem_append] at hd
  have hc : c.isDigit = true := hd c (by simp)
  have htail : dateTail? ('/' :: (month ++ '/' :: (year ++ rest))) = some ('/' :: month ++ '/' :: year, rest) := by
    have hm : slashGroup? 2 ('/' :: (month ++ '/' :: (year ++ rest))) = some ('/' :: month, '/' :: (year ++ rest)) :=
      (slashGroup?_run 2 (fun c hc => hd c (by simp [hc])) fun c hc => by cases hc; rfl).trans (if_pos hl.2.1)
    have hy := (slashGroup?_run 4 (fun c hc => hd c (by simp [hc])) hr).trans (if_pos hl.2.2)
    simp [dateTail?, hm, hy]
  obtain ⟨htake, hdrop⟩ := takeWhile_run (u := [d]) (v := '/' :: (month ++ '/' :: (year ++ rest)))
    (fun c hc => hd c (by simp at hc; simp [hc])) fun c hc => by cases hc; rfl
  rw [List.singleton_append] at htake hdrop
  refine ⟨c, d :: '/' :: (month ++ '/' :: (year ++ rest)), rfl, (scan_digit [] hc).1, ?_⟩
  rw [(scan_digit _ hc).2, scanNumber, htake, hdrop]
  simp [htail]

theorem date {day month year : List Char} (hl : day.length = 2 ∧ month.length = 2 ∧ year.length = 4)
    (hd : ∀ c ∈ day ++ month ++ year, c.isDigit = true) (hr : ∀ c ∈ rest.head?, c.isDigit = false) (h : Lexes rest ts) :
    Lexes (day ++ '/' :: (month ++ '/' :: (year ++ rest)))
      (⟨.date, String.ofList (day ++ '/' :: (month ++ '/' :: year))⟩ :: ts) := by
  obtain ⟨c, cs, htext, hb, hs⟩ := scan_date hl hd hr
  rw [htext]
  exact lexeme hb (by rw [hs]; rfl) (fun he => by cases he) (by rw [hs]; exact h)

end Lexes

end ScriptLang
