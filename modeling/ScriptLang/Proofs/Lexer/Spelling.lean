/-
  ScriptLang.Proofs.Lexer.Spelling — the texts of tokens, and what one lexeme can be.

  `Token.OfClass`: the text of a token is one that its kind can have. `Token.WrittenAs t u`:
  `u` is how `t` stands in a program, a string in a quote that it has not.
  - `Lexeme.Spells.ofClass` / `Lexeme.spells_of_ofClass`: `Spells`, with a constructor for each sort
    of lexeme, is the two together.
  - `Lexeme.scan_spells` / `Lexeme.scan_error`: a lexeme spells its token, or is a character or an
    open string that is none.
  - `Lexeme.le_scan`: no token is spelled by more of the text than the lexeme has.
-/

import ScriptLang.Proofs.Lexer.Lexing
import Mathlib.Data.List.TakeWhile

namespace ScriptLang

open Lexeme
open Token (Kind)

/-! ## Classes of texts -/

/-- An identifier that is no keyword. -/
structure IsName (name : String) : Prop where
  identifier : ∃ c cs, name.toList = c :: cs ∧ startsName c = true ∧ ∀ d ∈ cs, continuesName d = true
  free : name.toList ∉ keywords.map Prod.fst

/-- A string that one of the two quotes can be put around. -/
def LacksQuote (text : String) : Prop := '"' ∉ text.toList ∨ '\'' ∉ text.toList

/-- The digits of a date: two of the day, two of the month and four of the year. -/
structure DateDigits (day month year : List Char) : Prop where
  lengths : day.length = 2 ∧ month.length = 2 ∧ year.length = 4
  digits : ∀ c ∈ day ++ month ++ year, c.isDigit = true

/-- The texts of a kind that has just these; none for a kind with a class of texts, or without a text. -/
def Token.Kind.spellings : Kind → List (List Char)
  | .letWord => ["let".toList]
  | .ifWord => ["if".toList]
  | .elseWord => ["else".toList]
  | .whileWord => ["while".toList]
  | .defWord => ["def".toList]
  | .returnWord => ["return".toList]
  | .emptyWord => ["empty".toList]
  | .trueWord => ["true".toList]
  | .falseWord => ["false".toList]
  | .newline => [['\n']]
  | .semicolon => [[';']]
  | .openBrace => [['{']]
  | .closeBrace => [['}']]
  | .openParen => [['(']]
  | .closeParen => [[')']]
  | .openBracket => [['[']]
  | .closeBracket => [[']']]
  | .comma => [[',']]
  | .assign => [['=']]
  | .plus => [['+']]
  | .minus => [['-']]
  | .star => [['*']]
  | .slash => [['/']]
  | .percent => [['%']]
  | .caret => [['^']]
  | .less => [['<']]
  | .lessEqual => [['<', '=']]
  | .greater => [['>']]
  | .greaterEqual => [['>', '=']]
  | .equal => [['=', '=']]
  | .notEqual => [['!', '=']]
  | .and => ["and".toList, ['&', '&']]
  | .or => ["or".toList, ['|', '|']]
  | .not => ["not".toList]
  | .bang => [['!']]
  | .tilde => [['~']]
  | .name | .string | .number | .date | .comment => []
  | .shiftLeft | .shiftRight | .ampersand | .bar | .doubleCaret | .endOfText => []

/-- The text is one that a token of this kind can have. -/
def Token.OfClass (t : Token) : Prop :=
  match t.kind with
  | .name => IsName t.text
  | .number => ∃ parts, Digits parts ∧ t.text.toList = Double.pointed parts
  | .date => ∃ day month year, DateDigits day month year ∧ t.text.toList = day ++ '/' :: (month ++ '/' :: year)
  | .string => LacksQuote t.text
  | .comment => ∃ cs, t.text.toList = '#' :: cs ∧ '\n' ∉ cs
  | k => t.text.toList ∈ k.spellings

/-- How a token stands in a program: its text, and a string between quotes that it has not. -/
inductive Token.WrittenAs (t : Token) : List Char → Prop
  | plain : t.kind ≠ .string → WrittenAs t t.text.toList
  | quoted {q : Char} : t.kind = .string → isQuote q = true → q ∉ t.text.toList →
      WrittenAs t (q :: (t.text.toList ++ [q]))

/-! ## Words -/

theorem wordKind_eq_name {word : List Char} : wordKind word = .name ↔ word ∉ keywords.map Prod.fst := by
  unfold wordKind
  cases h : keywords.lookup word with
  | none =>
    have hn : ∀ p ∈ keywords, (word != p.1) = true := by simpa using List.lookup_eq_none_iff.mp h
    refine iff_of_true rfl ?_
    intro hm
    obtain ⟨p, hp, he⟩ := List.mem_map.mp hm
    exact bne_iff_ne.mp (hn p hp) he.symm
  | some k =>
    obtain ⟨l₁, l₂, hl, -⟩ := List.lookup_eq_some_iff.mp h
    have hm : (word, k) ∈ keywords := by rw [hl]; simp
    have hk : ∀ p ∈ keywords, p.2 ≠ .name := by decide
    exact iff_of_false (hk _ hm) fun hno => hno (List.mem_map.mpr ⟨_, hm, rfl⟩)

/-- A word is a name or a keyword of its kind. -/
theorem wordKind_mem (word : List Char) : wordKind word = .name ∨ (word, wordKind word) ∈ keywords := by
  unfold wordKind
  cases h : keywords.lookup word with
  | none => exact .inl rfl
  | some k =>
    obtain ⟨l₁, l₂, hl, -⟩ := List.lookup_eq_some_iff.mp h
    exact .inr (by rw [hl]; simp)

theorem wordKind_ne_date (word : List Char) : wordKind word ≠ .date := by
  have hk : ∀ p ∈ keywords, p.2 ≠ .date := by decide
  intro he
  rcases wordKind_mem word with hn | hm
  · rw [he] at hn
    cases hn
  · exact hk _ hm he

namespace Lexeme

/-! ## What spells a token -/

variable {c : Char} {cs u v x y : List Char} {t : Token} {k : Kind}

/-- These characters are a lexeme of the token. -/
inductive Spells : List Char → Token → Prop
  | mark {c : Char} {k : Kind} : mark? c = some k → Spells [c] ⟨k, String.ofList [c]⟩
  | together {c : Char} {p : Pair} : pair? c = some p → Spells [c, p.second] ⟨p.together, String.ofList [c, p.second]⟩
  | alone {c : Char} {p : Pair} {k : Kind} : pair? c = some p → p.alone = some k → Spells [c] ⟨k, String.ofList [c]⟩
  | comment {cs : List Char} : '\n' ∉ cs → Spells ('#' :: cs) ⟨.comment, String.ofList ('#' :: cs)⟩
  | string {q : Char} {body : List Char} : isQuote q = true → q ∉ body →
      Spells (q :: (body ++ [q])) ⟨.string, String.ofList body⟩
  | number {parts : List Char × List Char} : Digits parts →
      Spells (Double.pointed parts) ⟨.number, String.ofList (Double.pointed parts)⟩
  | date {day month year : List Char} : DateDigits day month year →
      Spells (day ++ '/' :: (month ++ '/' :: year)) ⟨.date, String.ofList (day ++ '/' :: (month ++ '/' :: year))⟩
  | word {c : Char} {cs : List Char} : startsName c = true → (∀ d ∈ cs, continuesName d = true) →
      Spells (c :: cs) ⟨wordKind (c :: cs), String.ofList (c :: cs)⟩

/-- The kind of one mark, or of two together. -/
def punctuation? : List Char → Option Kind
  | [c] => (mark? c).or ((pair? c).bind Pair.alone)
  | [c, d] => (pair? c).bind fun p => if d = p.second then some p.together else none
  | _ => none

theorem spells_of_punctuation (h : punctuation? cs = some k) : Spells cs ⟨k, String.ofList cs⟩ := by
  unfold punctuation? at h
  split at h
  · rcases Option.or_eq_some_iff.mp h with h | ⟨-, h⟩
    · exact .mark h
    · obtain ⟨p, hp, ha⟩ := Option.bind_eq_some_iff.mp h
      exact .alone hp ha
  · obtain ⟨p, hp, ht⟩ := Option.bind_eq_some_iff.mp h
    split at ht <;> cases ht
    subst_vars
    exact .together hp
  · cases h

theorem keyword_letters {p : List Char × Kind} (h : p ∈ keywords) :
    ∃ c cs, p.1 = c :: cs ∧ startsName c = true ∧ ∀ d ∈ cs, continuesName d = true := by
  have hw : ∀ p ∈ keywords, p.1.head?.any startsName = true ∧ p.1.tail.all continuesName = true := by decide
  obtain ⟨hc, hcs⟩ := hw p h
  obtain ⟨_ | ⟨c, cs⟩, k⟩ := p
  · cases hc
  · exact ⟨c, cs, rfl, hc, List.all_eq_true.mp hcs⟩

theorem spells_of_keyword (h : (cs, k) ∈ keywords) : Spells cs ⟨k, String.ofList cs⟩ := by
  have hk : ∀ p ∈ keywords, wordKind p.1 = p.2 := by decide
  obtain ⟨c, ds, rfl, hc, hds⟩ := keyword_letters h
  rw [← show wordKind (c :: ds) = k from hk _ h]
  exact .word hc hds

theorem spells_of_spelling (h : cs ∈ k.spellings) : Spells cs ⟨k, String.ofList cs⟩ := by
  have hs : ∀ cs ∈ k.spellings, punctuation? cs = some k ∨ (cs, k) ∈ keywords := by cases k <;> decide
  exact (hs cs h).elim spells_of_punctuation spells_of_keyword

theorem ofClass_of_spelling (h : cs ∈ k.spellings) : Token.OfClass ⟨k, String.ofList cs⟩ := by
  rw [← String.toList_ofList (l := cs)] at h
  cases k
  case name | string | number | date | comment => cases h
  all_goals exact h

/-- What spells a token is the token written, and the token is of its class. -/
theorem Spells.ofClass (h : Spells u t) : t.OfClass ∧ t.WrittenAs u := by
  have plain {k : Kind} {cs : List Char} (hk : k ≠ .string) : Token.WrittenAs ⟨k, String.ofList cs⟩ cs := by
    have hw := Token.WrittenAs.plain (t := ⟨k, String.ofList cs⟩) hk
    rwa [String.toList_ofList] at hw
  have fixed {k : Kind} {cs : List Char} (hs : cs ∈ k.spellings) :
      Token.OfClass ⟨k, String.ofList cs⟩ ∧ Token.WrittenAs ⟨k, String.ofList cs⟩ cs :=
    ⟨ofClass_of_spelling hs, plain fun hk => by rw [hk] at hs; cases hs⟩
  cases h with
  | @mark c k hm =>
    refine fixed ?_
    unfold mark? at hm
    split at hm <;> cases hm <;> decide
  | @together c p hp =>
    refine fixed ?_
    unfold pair? at hp
    split at hp <;> cases hp <;> decide
  | @alone c p k hp ha =>
    refine fixed ?_
    unfold pair? at hp
    split at hp <;> cases hp <;> cases ha <;> decide
  | comment hn => exact ⟨⟨_, String.toList_ofList, hn⟩, plain (by decide)⟩
  | @string q body hq hb =>
    refine ⟨?_, ?_⟩
    · show LacksQuote _
      simp only [isQuote, Bool.or_eq_true, beq_iff_eq] at hq
      rw [LacksQuote, String.toList_ofList]
      rcases hq with rfl | rfl
      · exact .inl hb
      · exact .inr hb
    · have hw := Token.WrittenAs.quoted (t := ⟨.string, String.ofList body⟩) rfl hq (by rwa [String.toList_ofList])
      rwa [String.toList_ofList] at hw
  | number hp => exact ⟨⟨_, hp, String.toList_ofList⟩, plain (by decide)⟩
  | date hp => exact ⟨⟨_, _, _, hp, String.toList_ofList⟩, plain (by decide)⟩
  | @word c cs hc hcs =>
    rcases wordKind_mem (c :: cs) with hk | hk
    · rw [hk]
      refine ⟨⟨⟨c, cs, String.toList_ofList, hc, hcs⟩, ?_⟩, plain (by decide)⟩
      rw [String.toList_ofList]
      exact wordKind_eq_name.mp hk
    · have hs : ∀ p ∈ keywords, p.1 ∈ p.2.spellings := by decide
      exact fixed (hs _ hk)

/-- A token of its class is spelled by what it is written as. -/
theorem spells_of_ofClass (h : t.OfClass) (hu : t.WrittenAs u) : Spells u t := by
  obtain ⟨k, text⟩ := t
  obtain ⟨cs, rfl⟩ : ∃ cs, text = String.ofList cs := ⟨_, String.ofList_toList.symm⟩
  cases hu with
  | quoted hk hq hb =>
    cases hk
    rw [String.toList_ofList] at hb ⊢
    exact .string hq hb
  | plain hk =>
    unfold Token.OfClass at h
    simp only [String.toList_ofList] at h hk ⊢
    cases k
    case string => exact absurd rfl hk
    case name =>
      obtain ⟨c, ds, hcs, hc, hds⟩ := h.identifier
      have hw := h.free
      rw [String.toList_ofList] at hcs hw
      subst hcs
      rw [← wordKind_eq_name.mpr hw]
      exact .word hc hds
    case number => obtain ⟨parts, hp, rfl⟩ := h; exact .number hp
    case date => obtain ⟨day, month, year, hp, rfl⟩ := h; exact .date hp
    case comment => obtain ⟨ds, rfl, hn⟩ := h; exact .comment hn
    all_goals exact spells_of_spelling h

/-! ## What a lexeme spells -/

theorem dropWhile_head {p : Char → Bool} (cs : List Char) : ∀ d ∈ (cs.dropWhile p).head?, p d = false := by
  have h := List.head?_dropWhile_not p cs
  intro d hd
  rw [hd] at h
  simpa using h

theorem not_mem_takeWhile {α : Type} [BEq α] [LawfulBEq α] (a : α) (l : List α) : a ∉ l.takeWhile (· != a) := by
  intro hm
  have hne := List.mem_takeWhile_imp hm
  simp at hne

theorem slashGroup?_some {width : Nat} {group : List Char} (h : slashGroup? width cs = some (group, v)) :
    ∃ ds, group = '/' :: ds ∧ ds.length = width ∧ (∀ d ∈ ds, d.isDigit = true) ∧
      ∀ d ∈ v.head?, d.isDigit = false := by
  unfold slashGroup? at h
  split at h
  · simp only at h
    split at h <;> cases h
    exact ⟨_, rfl, ‹_›, List.all_eq_true.mp List.all_takeWhile, dropWhile_head _⟩
  · cases h

/-- Which scanner takes the lexeme. -/
theorem scan_cases (c : Char) (cs : List Char) :
    (∃ k, mark? c = some k ∧ scan c cs = ofToken k [c] cs) ∨ (∃ p, pair? c = some p ∧ scan c cs = scanPair p c cs) ∨
    (c = '#' ∧ scan c cs = scanComment c cs) ∨ (isQuote c = true ∧ scan c cs = scanString c cs) ∨
    (c.isDigit = true ∧ scan c cs = scanNumber c cs) ∨ (startsName c = true ∧ scan c cs = scanWord c cs) ∨
    (isQuote c = false ∧ scan c cs = unexpected c cs) := by
  unfold scan
  split
  · exact .inl ⟨_, ‹_›, rfl⟩
  split
  · exact .inr (.inl ⟨_, ‹_›, rfl⟩)
  refine .inr (.inr ?_)
  split
  · exact .inl ⟨‹_›, rfl⟩
  split
  · exact .inr (.inl ⟨‹_›, rfl⟩)
  split
  · exact .inr (.inr (.inl ⟨‹_›, rfl⟩))
  split
  · exact .inr (.inr (.inr (.inl ⟨‹_›, rfl⟩)))
  · exact .inr (.inr (.inr (.inr ⟨Bool.eq_false_iff.mpr ‹_›, rfl⟩)))

theorem scanPair_spells {p : Pair} (hp : pair? c = some p) (ht : (scanPair p c cs).outcome = .ok t) :
    Spells (scanPair p c cs).taken t := by
  unfold scanPair at ht ⊢
  cases cs with
  | nil =>
    cases ha : p.alone with
    | none => rw [ha] at ht; cases ht
    | some k => rw [ha] at ht; cases ht; exact .alone hp ha
  | cons d cs =>
    by_cases hd : d = p.second
    · simp only [if_pos hd] at ht ⊢
      cases ht
      exact hd ▸ .together hp
    · simp only [if_neg hd] at ht ⊢
      cases ha : p.alone with
      | none => rw [ha] at ht; cases ht
      | some k => rw [ha] at ht; cases ht; exact .alone hp ha

theorem scanString_spells {q : Char} (hq : isQuote q = true) (ht : (scanString q cs).outcome = .ok t) :
    Spells (scanString q cs).taken t := by
  unfold scanString at ht ⊢
  simp only at ht ⊢
  split at ht
  · rename_i d rest hd
    cases ht
    have hclose := dropWhile_head (p := (· != q)) cs
    rw [hd] at hclose
    obtain rfl : d = q := by simpa using hclose d rfl
    exact .string hq (not_mem_takeWhile d cs)
  · cases ht

theorem scanNumber_spells (hc : c.isDigit = true) (ht : (scanNumber c cs).outcome = .ok t) :
    Spells (scanNumber c cs).taken t ∧ (t.kind = .date → ∀ d ∈ (scanNumber c cs).rest.head?, d.isDigit = false) := by
  have hwhole : ∀ d ∈ c :: cs.takeWhile Char.isDigit, d.isDigit = true :=
    List.forall_mem_cons.mpr ⟨hc, List.all_eq_true.mp List.all_takeWhile⟩
  unfold scanNumber at ht ⊢
  simp only at ht ⊢
  split at ht
  · rename_i tail rest htail
    split at htail
    · rename_i hday
      cases ht
      simp only [dateTail?, Option.bind_eq_bind, Option.bind_eq_some_iff, Prod.exists, Option.some.injEq,
        Prod.mk.injEq] at htail
      obtain ⟨_, _, hm, _, _, hy, rfl, rfl⟩ := htail
      obtain ⟨month, rfl, hmonth, hmd, -⟩ := slashGroup?_some hm
      obtain ⟨year, rfl, hyear, hyd, hend⟩ := slashGroup?_some hy
      refine ⟨.date ⟨⟨hday, hmonth, hyear⟩, ?_⟩, fun _ => hend⟩
      exact List.forall_mem_append.mpr ⟨List.forall_mem_append.mpr ⟨hwhole, hmd⟩, hyd⟩
    · cases htail
  · cases ht
    refine ⟨?_, fun hk => by cases hk⟩
    have hnone : ∀ d ∈ ([] : List Char), d.isDigit = true := fun _ hd => absurd hd List.not_mem_nil
    obtain ⟨frac, hfrac, he⟩ : ∃ frac : List Char, (∀ d ∈ frac, d.isDigit = true) ∧
        c :: cs.takeWhile Char.isDigit ++ (fraction (cs.dropWhile Char.isDigit)).1 =
          Double.pointed (c :: cs.takeWhile Char.isDigit, frac) := by
      unfold fraction
      split
      · split
        · rename_i d rest _ hd
          exact ⟨d :: rest.takeWhile Char.isDigit,
            List.forall_mem_cons.mpr ⟨hd, List.all_eq_true.mp List.all_takeWhile⟩, rfl⟩
        · exact ⟨[], hnone, List.append_nil _⟩
      · exact ⟨[], hnone, List.append_nil _⟩
    rw [he]
    exact .number ⟨List.cons_ne_nil _ _, hwhole, hfrac⟩

theorem scanNumber_ok (c : Char) (cs : List Char) : ∃ t, (scanNumber c cs).outcome = .ok t := by
  unfold scanNumber
  simp only
  split <;> exact ⟨_, rfl⟩

/-- A lexeme spells its token. -/
theorem scan_spells (ht : (scan c cs).outcome = .ok t) : Spells (scan c cs).taken t := by
  rcases scan_cases c cs with ⟨k, hm, hs⟩ | ⟨p, hp, hs⟩ | ⟨rfl, hs⟩ | ⟨hq, hs⟩ | ⟨hd, hs⟩ | ⟨hw, hs⟩ | ⟨hq, hs⟩ <;>
    rw [hs] at ht ⊢
  · cases ht
    exact .mark hm
  · exact scanPair_spells hp ht
  · cases ht
    exact .comment (not_mem_takeWhile '\n' cs)
  · exact scanString_spells hq ht
  · exact (scanNumber_spells hd ht).1
  · cases ht
    exact .word hw (List.all_eq_true.mp List.all_takeWhile)
  · cases ht

/-- No digit comes after a date. -/
theorem scan_date (ht : (scan c cs).outcome = .ok t) (hk : t.kind = .date) :
    ∀ d ∈ (scan c cs).rest.head?, d.isDigit = false := by
  have hs := scan_spells ht
  have htaken := taken_append_rest c cs
  obtain ⟨day, month, year, hp, htext⟩ : ∃ day month year, DateDigits day month year ∧
      (scan c cs).taken = day ++ '/' :: (month ++ '/' :: year) := by
    generalize (scan c cs).taken = u at hs
    cases hs.ofClass.2 with
    | quoted hq => rw [hk] at hq; cases hq
    | plain =>
      have hclass := hs.ofClass.1
      rw [Token.OfClass, hk] at hclass
      exact hclass
  have hc : c.isDigit = true := by
    match day, hp.lengths.1 with
    | [a, b], _ =>
      rw [htext] at htaken
      exact (List.cons.inj htaken).1 ▸ hp.digits a (by simp)
  rw [(Lexes.scan_digit cs hc).2] at ht ⊢
  exact (scanNumber_spells hc ht).2 hk

theorem scanPair_error {p : Pair} {cause : LexicalCause} (he : (scanPair p c cs).outcome = .error cause) :
    cause = .unexpectedCharacter c ∧ (scanPair p c cs).taken = [c] := by
  unfold scanPair at he ⊢
  repeat' split at he
  all_goals cases he
  · rename_i hd _ _
    exact ⟨rfl, by simp only [if_neg hd]; rfl⟩
  · exact ⟨rfl, rfl⟩

theorem scanString_error {q : Char} {cause : LexicalCause} (he : (scanString q cs).outcome = .error cause) :
    cause = .unterminatedString ∧ q ∉ cs ∧ (scanString q cs).taken = q :: cs := by
  have hall := List.takeWhile_append_dropWhile (p := (· != q)) (l := cs)
  unfold scanString at he ⊢
  simp only at he ⊢
  split at he
  · cases he
  · rename_i hd
    cases he
    rw [hd, List.append_nil] at hall
    exact ⟨rfl, hall ▸ not_mem_takeWhile q cs, by rw [hall]⟩

/-- A lexeme that is no token is one character, or all that is left after a quote. -/
theorem scan_error {cause : LexicalCause} (he : (scan c cs).outcome = .error cause) :
    (isQuote c = false ∧ cause = .unexpectedCharacter c ∧ (scan c cs).taken = [c]) ∨
      isQuote c = true ∧ cause = .unterminatedString ∧ c ∉ cs ∧ (scan c cs).taken = c :: cs := by
  rcases scan_cases c cs with ⟨k, hm, hs⟩ | ⟨p, hp, hs⟩ | ⟨rfl, hs⟩ | ⟨hq, hs⟩ | ⟨hd, hs⟩ | ⟨hw, hs⟩ | ⟨hq, hs⟩ <;>
    rw [hs] at he ⊢
  · cases he
  · have hq : isQuote c = false := by
      unfold pair? at hp
      split at hp <;> cases hp <;> decide
    exact .inl ⟨hq, scanPair_error he⟩
  · cases he
  · exact .inr ⟨hq, scanString_error he⟩
  · obtain ⟨t, ht⟩ := scanNumber_ok c cs
    rw [ht] at he
    cases he
  · cases he
  · cases he
    exact .inl ⟨hq, rfl, rfl⟩

theorem Spells.ne_nil (h : Spells u t) : u ≠ [] := by
  cases h with
  | number hp =>
    obtain ⟨c, cs, he, -⟩ := hp.pointed_head
    rw [he]
    exact nofun
  | date hp => simp
  | _ => exact nofun

/-! ## No longer lexeme -/

theorem length_takeWhile_append {p : Char → Bool} (h : ∀ d ∈ u, p d = true) (v : List Char) :
    u.length ≤ ((u ++ v).takeWhile p).length := by
  rw [List.takeWhile_append_of_pos h, List.length_append]
  exact Nat.le_add_right ..

/-- A number is at least its whole digits. -/
theorem le_scanNumber (c : Char) (cs : List Char) :
    (cs.takeWhile Char.isDigit).length + 1 ≤ (scanNumber c cs).taken.length := by
  unfold scanNumber
  simp only
  split <;> simp [ofToken]

/-- Digits after a point are taken with those before it. -/
theorem le_scanNumber_fraction {whole frac : List Char} {d : Char} (hw : ∀ d ∈ whole, d.isDigit = true)
    (hf : ∀ e ∈ d :: frac, e.isDigit = true) :
    (c :: (whole ++ '.' :: d :: frac)).length ≤ (scanNumber c (whole ++ '.' :: (d :: frac ++ y))).taken.length := by
  obtain ⟨hd, hf⟩ := List.forall_mem_cons.mp hf
  obtain ⟨htake, hdrop⟩ := takeWhile_run (v := '.' :: (d :: frac ++ y)) hw fun e he => by cases he; rfl
  have hle := length_takeWhile_append hf y
  rw [scanNumber, htake, hdrop, Lexes.dateTail?_of_head fun e he => by cases he; decide]
  simp only [ite_self, List.cons_append, fraction, hd, if_true, ofToken, List.length_cons, List.length_append]
  omega

/-- The lexeme has at least as much of the text as any that spells a token there. Its token may
    be another, as a keyword is a name once letters follow it. -/
theorem le_scan (h : Spells (c :: x) t) (hy : t.kind = .date → ∀ d ∈ y.head?, d.isDigit = false) :
    (c :: x).length ≤ (scan c (x ++ y)).taken.length ∧ ∃ t', (scan c (x ++ y)).outcome = .ok t' := by
  have hpos : 1 ≤ (scan c (x ++ y)).taken.length := List.length_pos_iff.mpr (taken_ne_nil c (x ++ y))
  generalize hu : c :: x = u at h
  cases h with
  | mark hm =>
    cases hu
    simp only [scan, hm] at hpos ⊢
    exact ⟨hpos, _, rfl⟩
  | @together _ p hp =>
    cases hu
    have hs : scan c ([p.second] ++ y) = ofToken p.together [c, p.second] y := by
      rw [(Lexes.scan_pair _ hp).1]
      simp [scanPair]
    rw [hs]
    exact ⟨Nat.le_refl _, _, rfl⟩
  | @alone _ p k hp ha =>
    cases hu
    refine ⟨hpos, ?_⟩
    rw [List.nil_append, (Lexes.scan_pair _ hp).1]
    unfold scanPair
    cases y with
    | nil => simp only [ha]; exact ⟨_, rfl⟩
    | cons d y =>
      simp only [ha]
      split <;> exact ⟨_, rfl⟩
  | comment hn =>
    cases hu
    refine ⟨Nat.succ_le_succ (length_takeWhile_append (fun d hd => ?_) y), _, rfl⟩
    exact bne_iff_ne.mpr fun he => hn (he ▸ hd)
  | @string q body hq hb =>
    obtain ⟨rfl, rfl⟩ := List.cons.inj hu
    rw [List.append_assoc, List.singleton_append, (Lexes.scan_string hq hb).2]
    exact ⟨Nat.le_refl _, _, rfl⟩
  | @number parts hp =>
    obtain ⟨whole, frac⟩ := parts
    cases whole with
    | nil => exact absurd rfl hp.whole_ne_nil
    | cons d whole =>
      obtain ⟨hd, hw⟩ := List.forall_mem_cons.mp hp.whole
      have hs (cs : List Char) : scan d cs = scanNumber d cs := (Lexes.scan_digit cs hd).2
      cases frac with
      | nil =>
        obtain ⟨rfl, rfl⟩ := List.cons.inj hu
        rw [hs]
        exact ⟨Nat.le_trans (Nat.succ_le_succ (length_takeWhile_append hw y)) (le_scanNumber ..), scanNumber_ok ..⟩
      | cons e frac =>
        obtain ⟨rfl, rfl⟩ : c = d ∧ x = whole ++ '.' :: e :: frac := List.cons.inj hu
        rw [hs, List.append_assoc]
        exact ⟨le_scanNumber_fraction hw hp.fraction, scanNumber_ok ..⟩
  | @date day month year hp =>
    obtain ⟨a, as, htext, -, hs⟩ := Lexes.scan_date hp.lengths hp.digits (hy rfl)
    have hcat := congrArg (· ++ y) hu
    simp only [List.cons_append, List.append_assoc, htext] at hcat
    obtain ⟨rfl, rfl⟩ := List.cons.inj hcat
    rw [hs]
    exact ⟨Nat.le_refl _, _, rfl⟩
  | word hc hcs =>
    cases hu
    have hs := (Lexes.scan_continuesName (x ++ y) (continuesName_start hc)).2
    rw [if_neg (by simp [Lexes.not_digit_of_startsName hc]), if_pos hc] at hs
    rw [hs]
    exact ⟨Nat.succ_le_succ (length_takeWhile_append hcs y), _, rfl⟩

end Lexeme

end ScriptLang
