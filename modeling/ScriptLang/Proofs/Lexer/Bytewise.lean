/-
  ScriptLang.Proofs.Lexer.Bytewise — over the bytes of a text, the same lexer.

  `At before read rest b`: a lexeme starts after `before`, `read` is read of it and `rest` is
  left. Every operation of a `ByteLexer` that stands so is given by `rest`.
  - `At.scanToken`: one lexeme is what `Lexeme.scan` takes.
-/

import ScriptLang.Proofs.Lexer.ByteLexer

namespace ScriptLang.ByteLexer

open Utf8
open Lexeme (isBlank isQuote startsName continuesName ofToken)
open Token (Kind)

variable {b : ByteLexer} {before read rest : List Char} {c : Char} {cs : List Char} {p : Char → Bool}

/-! ## Classes -/

/-- A character beyond ASCII starts no token and separates none. -/
theorem beyond (hc : 128 ≤ c.toNat) : Lexeme.mark? c = none ∧ Lexeme.pair? c = none ∧ isBlank c = false ∧
    isQuote c = false ∧ c ≠ '#' ∧ c ≠ '_' ∧ c.isDigit = false ∧ c.isAlpha = false := by
  have hne (d : Char) (hd : d.toNat < 128) : c ≠ d := by
    rintro rfl
    omega
  refine ⟨?_, ?_, ?_, ?_, hne _ (by decide), hne _ (by decide), ?_, ?_⟩
  · unfold Lexeme.mark?
    split <;> first | rfl | exact absurd rfl (hne _ (by decide))
  · unfold Lexeme.pair?
    split <;> first | rfl | exact absurd rfl (hne _ (by decide))
  · simp [isBlank, hne ' ' (by decide), hne '\t' (by decide), hne '\r' (by decide)]
  · simp [isQuote, hne '"' (by decide), hne '\'' (by decide)]
  · refine Bool.eq_false_iff.mpr fun h => ?_
    simp only [Char.isDigit, Bool.and_eq_true, decide_eq_true_eq] at h
    exact absurd (Nat.le_trans hc (UInt32.le_iff_toNat_le.mp h.2)) (by decide)
  · have halpha : c.isAlpha = (decide (c.val ≥ 65 ∧ c.val ≤ 90) || decide (c.val ≥ 97) && decide (c.val ≤ 122)) := rfl
    refine Bool.eq_false_iff.mpr fun h => ?_
    simp only [halpha, Bool.or_eq_true, Bool.and_eq_true, decide_eq_true_eq] at h
    rcases h with h | h
    · exact absurd (Nat.le_trans hc (UInt32.le_iff_toNat_le.mp h.2)) (by decide)
    · exact absurd (Nat.le_trans hc (UInt32.le_iff_toNat_le.mp h.2)) (by decide)

theorem isDigit_ascii : AsciiClass Char.isDigit := ⟨false, fun _ hc => (beyond hc).2.2.2.2.2.2.1⟩

theorem startsName_beyond (hc : 128 ≤ c.toNat) : startsName c = false := by
  obtain ⟨-, -, -, -, -, hu, -, ha⟩ := beyond hc
  simp [startsName, hu, ha]

theorem continuesName_ascii : AsciiClass continuesName := by
  refine ⟨false, fun c hc => ?_⟩
  obtain ⟨-, -, -, -, -, hu, hd, ha⟩ := beyond hc
  simp [continuesName, Char.isAlphanum, hu, hd, ha]

/-! ## A place in a text -/

/-- The lexer past these characters, with their lines counted. -/
def past (b : ByteLexer) (u : List Char) : ByteLexer := b.across (encode u)

@[simp] theorem past_nil (b : ByteLexer) : b.past [] = b := rfl

@[simp] theorem past_past (b : ByteLexer) (u v : List Char) : (b.past u).past v = b.past (u ++ v) := by
  simp only [past, across_across, encode_append]

@[simp] theorem past_place (b : ByteLexer) (u : List Char) : (b.past u).place = b.place + (encode u).length := rfl

@[simp] theorem past_start (b : ByteLexer) (u : List Char) : (b.past u).start = b.start := rfl

theorem past_line (b : ByteLexer) (u : List Char) : (b.past u).line = b.line + u.count '\n' :=
  congrArg (b.line + ·) (count_encode (by decide) u)

/-- The lexeme that starts after `before` was read up to `rest`. -/
structure At (before read rest : List Char) (b : ByteLexer) : Prop where
  source : b.source = String.ofList (before ++ read ++ rest)
  start : b.start = (encode before).length
  place : b.place = (encode (before ++ read)).length

namespace At

theorem ahead (h : At before read rest b) : b.ahead = encode rest := by
  rw [ByteLexer.ahead, h.source, h.place, bytes_ofList, encode_append (before ++ read), List.drop_left]

theorem past {u v : List Char} (h : At before read (u ++ v) b) : At before (read ++ u) v (b.past u) where
  source := by rw [ByteLexer.past, across_source, h.source]; simp
  start := h.start
  place := by rw [past_place, h.place]; simp [Nat.add_assoc]

theorem next (h : At before read (c :: cs) b) : At before (read ++ [c]) cs (b.past [c]) := past (u := [c]) h

/-- What the first byte says, past the end 0. -/
theorem head_encode (hp : AsciiClass p) (h0 : p (charOf 0) = false) (cs : List Char) :
    p (charOf ((encode cs).head?.getD 0)) = cs.head?.any p := by
  cases cs with
  | nil => exact h0
  | cons c cs =>
    obtain ⟨byte, bs, hb⟩ := List.exists_cons_of_ne_nil (String.utf8EncodeChar_ne_nil (c := c))
    rw [encode_cons, hb]
    exact hp.charOf_eq (by rw [hb]; simp)

theorem sees (h : At before read rest b) (hp : AsciiClass p) (h0 : p (charOf 0) = false) :
    b.sees p = rest.head?.any p := by
  rw [ByteLexer.sees, peek_eq, h.ahead, head_encode hp h0]

theorem ahead_cons (h : At before read (c :: cs) b) (hc : c.toNat < 128) : b.ahead = c.toUInt8 :: encode cs := by
  rw [h.ahead, encode_cons, utf8EncodeChar_ascii hc]
  rfl

theorem seesNext (h : At before read (c :: cs) b) (hc : c.toNat < 128) (hp : AsciiClass p) (h0 : p (charOf 0) = false) :
    p (charOf b.peekNext) = cs.head?.any p := by
  rw [peekNext_eq, h.ahead_cons hc, ← head_encode hp h0, List.head?_eq_getElem?]
  rfl

theorem toUInt8_ne {d : Char} (hc : c.toNat < 128) (hd : d.toNat < 128) (hne : c ≠ d) : c.toUInt8 ≠ d.toUInt8 := by
  rw [Ne, ← charOf_inj, charOf_toUInt8 hc, charOf_toUInt8 hd]
  exact hne

theorem advance (h : At before read (c :: cs) b) (hc : c.toNat < 128) (hn : c ≠ '\n') :
    b.advance = some (c.toUInt8, b.past [c]) := by
  have hacross : b.past [c] = b.across [c.toUInt8] := by
    rw [ByteLexer.past, encode_cons, utf8EncodeChar_ascii hc]
    rfl
  rw [advance_eq (h.ahead_cons hc), hacross, across_one (toUInt8_ne hc (by decide) hn)]

theorem atEnd (h : At before read rest b) : b.atEnd = rest.isEmpty := by
  rw [atEnd_eq, h.ahead]
  cases rest with
  | nil => rfl
  | cons c cs =>
    obtain ⟨byte, bs, hb⟩ := List.exists_cons_of_ne_nil (String.utf8EncodeChar_ne_nil (c := c))
    rw [encode_cons, hb]
    rfl

theorem skipWhile (h : At before read rest b) (hp : AsciiClass p) (h0 : p (charOf 0) = false) (hn : p '\n' = false) :
    b.skipWhile p = some (b.past (rest.takeWhile p)) := by
  rw [skipWhile_eq h0 hn, h.ahead, takeWhile_encode hp]
  rfl

theorem skipDigits (h : At before read rest b) : b.skipWhile Char.isDigit = some (b.past (rest.takeWhile Char.isDigit)) :=
  h.skipWhile isDigit_ascii rfl rfl

theorem isEq_ascii {q : Char} (hq : q.toNat < 128) : AsciiClass (· == q) := by
  refine ⟨false, fun c hc => beq_eq_false_iff_ne.mpr ?_⟩
  rintro rfl
  omega

/-! ## Lexemes by kind -/

/-- Whether a character is next. -/
theorem sees_mark {q : Char} (h : At before read rest b) (hq : q.toNat < 128) (h0 : q ≠ charOf 0) :
    (∃ cs, rest = q :: cs ∧ b.sees (· == q) = true) ∨ ((∀ cs, rest ≠ q :: cs) ∧ b.sees (· == q) = false) := by
  rw [h.sees (isEq_ascii hq) (beq_eq_false_iff_ne.mpr h0.symm)]
  cases rest with
  | nil => exact .inr ⟨nofun, rfl⟩
  | cons d cs =>
    by_cases hd : d = q
    · subst hd
      exact .inl ⟨cs, rfl, by simp⟩
    · exact .inr ⟨fun _ he => hd (List.cons.inj he).1, by simpa using hd⟩

/-- A character is taken if it is next. -/
theorem takeIf {q : Char} (h : At before read rest b) (hq : q.toNat < 128) (hn : q ≠ '\n') (h0 : q ≠ charOf 0) :
    (∃ cs, rest = q :: cs ∧ b.takeIf q = some (true, b.past [q])) ∨
    ((∀ cs, rest ≠ q :: cs) ∧ b.takeIf q = some (false, b)) := by
  rcases h.sees_mark hq h0 with ⟨cs, rfl, hsees⟩ | ⟨hno, hsees⟩
  · refine .inl ⟨cs, rfl, ?_⟩
    rw [ByteLexer.takeIf, h.atEnd, hsees, h.advance hq hn]
    rfl
  · refine .inr ⟨hno, ?_⟩
    rw [ByteLexer.takeIf, hsees, Bool.and_false]
    rfl

/-- Digits are one byte each. -/
theorem length_encode_digits {ds : List Char} (hd : ∀ d ∈ ds, d.isDigit = true) : (encode ds).length = ds.length := by
  induction ds with
  | nil => rfl
  | cons d ds ih =>
    obtain ⟨hd, hds⟩ := List.forall_mem_cons.mp hd
    have hascii : d.toNat < 128 := by
      refine Nat.lt_of_not_le fun h => ?_
      rw [(beyond h).2.2.2.2.2.2.1] at hd
      cases hd
    rw [encode_cons, utf8EncodeChar_ascii hascii, List.length_append, ih hds, List.length_cons, Nat.add_comm]
    rfl

theorem takeWhile_digits (cs : List Char) : ∀ d ∈ cs.takeWhile Char.isDigit, d.isDigit = true :=
  List.all_eq_true.mp List.all_takeWhile

theorem slashGroup (h : At before read rest b) (width : Nat) : ∃ u v, rest = u ++ v ∧ '\n' ∉ u ∧
    b.slashGroup width = some ((Lexeme.slashGroup? width rest).isSome, b.past u) ∧
    ∀ group ∈ Lexeme.slashGroup? width rest, group = (u, v) := by
  rcases h.sees_mark (q := '/') (by decide) (by decide) with ⟨cs, rfl, hsees⟩ | ⟨hs, hsees⟩
  · have hdigits := h.next.skipDigits
    have hwidth : ((b.past ['/']).past (cs.takeWhile Char.isDigit)).place - (b.past ['/']).place =
        (cs.takeWhile Char.isDigit).length := by
      rw [past_place (b.past ['/']), Nat.add_sub_cancel_left, length_encode_digits (takeWhile_digits cs)]
    refine ⟨'/' :: cs.takeWhile Char.isDigit, cs.dropWhile Char.isDigit, by simp, ?_, ?_, ?_⟩
    · refine List.not_mem_cons_of_ne_of_not_mem (by decide) fun hn => ?_
      exact absurd (takeWhile_digits cs _ hn) (by decide)
    · rw [ByteLexer.slashGroup, if_pos hsees, h.advance (by decide) (by decide)]
      simp only [Option.bind_eq_bind, Option.bind_some, hdigits, hwidth]
      by_cases hw : (cs.takeWhile Char.isDigit).length = width <;> simp [Lexeme.slashGroup?, hw]
    · intro group hg
      simp only [Lexeme.slashGroup?] at hg
      split at hg <;> cases hg
      rfl
  · have hnone : Lexeme.slashGroup? width rest = none := by
      unfold Lexeme.slashGroup?
      split
      · exact absurd rfl (hs _)
      · rfl
    refine ⟨[], rest, rfl, List.not_mem_nil, ?_, by simp [hnone]⟩
    rw [ByteLexer.slashGroup, if_neg (by simp [hsees]), hnone]
    rfl

/-- Back to the place before characters that are no line feed. -/
theorem back {u : List Char} (hn : '\n' ∉ u) (b : ByteLexer) : { b.past u with place := b.place } = b := by
  have hline : (b.past u).line = b.line := by rw [past_line, List.count_eq_zero.mpr hn, Nat.add_zero]
  show { b with line := (b.past u).line } = b
  rw [hline]

/-- The month and the year are taken, or the lexer is back where it was. -/
theorem dateTail (h : At before read rest b) : (∃ tail v, rest = tail ++ v ∧
      Lexeme.dateTail? rest = some (tail, v) ∧ b.scanDateTail = some (true, b.past tail)) ∨
    (Lexeme.dateTail? rest = none ∧ b.scanDateTail = some (false, b)) := by
  obtain ⟨u, v, rfl, hn, hu, hgroup⟩ := h.slashGroup 2
  cases hm : Lexeme.slashGroup? 2 (u ++ v) with
  | none =>
    rw [hm] at hu
    refine .inr ⟨by simp [Lexeme.dateTail?, hm], ?_⟩
    simp only [scanDateTail, hu]
    exact congrArg (fun b => some (false, b)) (back hn b)
  | some month =>
    obtain rfl := hgroup month hm
    obtain ⟨u', v', rfl, hn', hu', hgroup'⟩ := h.past.slashGroup 4
    rw [hm] at hu
    rw [past_past] at hu'
    cases hy : Lexeme.slashGroup? 4 (u' ++ v') with
    | none =>
      rw [hy] at hu'
      refine .inr ⟨by simp [Lexeme.dateTail?, hm, hy], ?_⟩
      simp only [scanDateTail, hu, hu', Option.bind_eq_bind, Option.bind_some]
      exact congrArg (fun b => some (false, b)) (back (fun h => (List.mem_append.mp h).elim hn hn') b)
    | some year =>
      obtain rfl := hgroup' year hy
      rw [hy] at hu'
      refine .inl ⟨u ++ u', v', (List.append_assoc ..).symm, by simp [Lexeme.dateTail?, hm, hy], ?_⟩
      simp only [scanDateTail, hu, hu', Option.bind_eq_bind, Option.bind_some]
      rfl

theorem scanFraction (h : At before read rest b) : b.scanFraction = some (b.past (Lexeme.fraction rest).1) := by
  rcases h.sees_mark (q := '.') (by decide) (by decide) with ⟨cs, rfl, hsees⟩ | ⟨hs, hsees⟩
  · have hnext : Char.isDigit (charOf b.peekNext) = cs.head?.any Char.isDigit := h.seesNext (by decide) isDigit_ascii rfl
    rw [ByteLexer.scanFraction, hsees, hnext]
    cases cs with
    | nil => rfl
    | cons d cs =>
      cases hd : d.isDigit with
      | true =>
        have hdigits := h.next.skipDigits
        rw [List.takeWhile_cons_of_pos hd] at hdigits
        simp only [List.head?_cons, Option.any_some, hd, Lexeme.fraction, if_true, Bool.and_self,
          h.advance (by decide) (by decide), Option.bind_eq_bind, Option.bind_some, hdigits, past_past,
          List.singleton_append]
      | false => simp [hd, Lexeme.fraction]
  · have hnone : Lexeme.fraction rest = ([], rest) := by
      unfold Lexeme.fraction
      split
      · exact absurd rfl (hs _)
      · rfl
    rw [ByteLexer.scanFraction, hsees, hnone]
    rfl

/-- A number is taken with what follows it of a date or a fraction. -/
theorem scanNumber (h : At before [c] cs b) (hc : c.isDigit = true) : ∃ k u v, cs = u ++ v ∧
    Lexeme.scanNumber c cs = ofToken k (c :: u) v ∧ b.scanNumber = some (k, b.past u) := by
  obtain ⟨ds, after, hds, hafter, rfl⟩ : ∃ ds after, cs.takeWhile Char.isDigit = ds ∧
      cs.dropWhile Char.isDigit = after ∧ cs = ds ++ after := ⟨_, _, rfl, rfl, List.takeWhile_append_dropWhile.symm⟩
  have hpast : At before ([c] ++ ds) after (b.past ds) := h.past
  have hwidth : (b.past ds).place - (b.past ds).start = (c :: ds).length := by
    have hdigits : ∀ d ∈ c :: ds, d.isDigit = true := List.forall_mem_cons.mpr ⟨hc, hds ▸ takeWhile_digits _⟩
    rw [hpast.place, hpast.start, encode_append, List.length_append, Nat.add_sub_cancel_left]
    exact length_encode_digits hdigits
  rw [Lexeme.scanNumber, hds, hafter, ByteLexer.scanNumber, h.skipDigits, hds]
  simp only [Option.bind_eq_bind, Option.bind_some, hwidth]
  -- Whatever is no date goes on with the fraction.
  have number : ∃ k u v, ds ++ after = u ++ v ∧
      ofToken .number (c :: ds ++ (Lexeme.fraction after).1) (Lexeme.fraction after).2 = ofToken k (c :: u) v ∧
      ((b.past ds).scanFraction.bind fun b => some (Kind.number, b)) = some (k, b.past u) := by
    refine ⟨.number, ds ++ (Lexeme.fraction after).1, (Lexeme.fraction after).2, ?_, rfl, ?_⟩
    · rw [List.append_assoc, Lexeme.fraction_append]
    · rw [hpast.scanFraction, past_past]
      rfl
  by_cases hw : (c :: ds).length = 2
  · rw [if_pos hw, if_pos hw]
    rcases hpast.dateTail with ⟨tail, v, hv, ht, hb⟩ | ⟨ht, hb⟩
    · rw [ht, hb]
      exact ⟨.date, ds ++ tail, v, by rw [hv, List.append_assoc], rfl, by simp⟩
    · rw [ht, hb]
      exact number
  · rw [if_neg hw, if_neg hw]
    exact number

theorem bne_comp_charOf {q : Char} (hq : q.toNat < 128) : (fun byte : UInt8 => byte != q.toUInt8) = (· != q) ∘ charOf := by
  funext byte
  rw [Bool.eq_iff_iff, bne_iff_ne, Function.comp, bne_iff_ne, Ne, Ne, ← charOf_inj, charOf_toUInt8 hq]

theorem place_le (h : At before read rest b) : b.place ≤ (bytes b.source).length := by
  rw [h.place, h.source, bytes_ofList, encode_append (before ++ read), List.length_append]
  exact Nat.le_add_right ..

theorem start_le (h : At before read rest b) : b.start ≤ b.place := by
  rw [h.start, h.place, encode_append, List.length_append]
  exact Nat.le_add_right ..

/-- A comment is taken up to the line feed. -/
theorem scanComment (h : At before read rest b) :
    b.scanComment = some (.comment, b.past (rest.takeWhile (· != '\n'))) := by
  rw [scanComment_eq h.place_le, h.ahead, bne_comp_charOf (by decide), takeWhile_encode (.ne (by decide))]
  rfl

theorem lookup_keywords (word : List Char) : keywords.lookup (encode word) = Lexeme.keywords.lookup word := by
  rw [keywords]
  induction Lexeme.keywords with
  | nil => rfl
  | cons entry entries ih =>
    have hbeq : (encode word == encode entry.1) = (word == entry.1) := by
      rw [Bool.eq_iff_iff, beq_iff_eq, beq_iff_eq, encode_inj]
    rw [List.map_cons, List.lookup_cons, List.lookup_cons, hbeq, ih]

/-- The bytes of the lexeme. -/
theorem lexeme_bytes (h : At before read rest b) : ((bytes b.source).take b.place).drop b.start = encode read := by
  rw [h.source, h.place, h.start, bytes_ofList, encode_append (before ++ read), List.take_left, encode_append,
    List.drop_left]

theorem scanWord (h : At before [c] cs b) :
    b.scanWord = some (Lexeme.wordKind (c :: cs.takeWhile continuesName), b.past (cs.takeWhile continuesName)) := by
  have hpast : At before ([c] ++ cs.takeWhile continuesName) (cs.dropWhile continuesName)
      (b.past (cs.takeWhile continuesName)) := past (by rw [List.takeWhile_append_dropWhile]; exact h)
  rw [ByteLexer.scanWord, h.skipWhile continuesName_ascii rfl rfl]
  simp only [Option.bind_eq_bind, Option.bind_some]
  rw [if_pos ⟨hpast.start_le, hpast.place_le⟩, hpast.lexeme_bytes, lookup_keywords]
  rfl

/-- A string is taken with its closing quote; without one, everything is. -/
theorem scanString {q : Char} (h : At before [q] cs b) (hq : q.toNat < 128) (hn : q ≠ '\n') :
    (∃ v, cs.dropWhile (· != q) = q :: v ∧ b.scanString q.toUInt8 = some (.ok (), { b.past (cs.takeWhile (· != q) ++ [q]) with
      text := some (b.start + 1, b.place + (encode (cs.takeWhile (· != q))).length), pending := some .string })) ∨
    (cs.dropWhile (· != q) = [] ∧ b.scanString q.toUInt8 = some (.error ⟨.unterminatedString, b.line⟩, b.past cs)) := by
  have hskip : b.skipString q.toUInt8 = some (b.past (cs.takeWhile (· != q))) := by
    rw [skipString_eq, h.ahead, bne_comp_charOf hq, takeWhile_encode (.ne hq)]
    rfl
  have hsplit : cs.takeWhile (· != q) ++ cs.dropWhile (· != q) = cs := List.takeWhile_append_dropWhile
  have hpast : At before ([q] ++ cs.takeWhile (· != q)) (cs.dropWhile (· != q)) (b.past (cs.takeWhile (· != q))) :=
    past (by rw [hsplit]; exact h)
  rw [ByteLexer.scanString, hskip]
  simp only [Option.bind_eq_bind, Option.bind_some, hpast.atEnd]
  cases hd : cs.dropWhile (· != q) with
  | nil =>
    rw [hd, List.append_nil] at hsplit
    exact .inr ⟨rfl, by rw [hsplit]; rfl⟩
  | cons d v =>
    have hclose := Lexeme.dropWhile_head (p := (· != q)) cs
    rw [hd] at hclose hpast
    obtain rfl : d = q := by simpa using hclose d rfl
    refine .inl ⟨v, rfl, ?_⟩
    have hplace : (b.past (cs.takeWhile (· != d) ++ [d])).place - 1 =
        b.place + (encode (cs.takeWhile (· != d))).length := by
      rw [past_place, encode_append, List.length_append, encode_cons, utf8EncodeChar_ascii hq]
      rfl
    rw [if_neg (by simp), hpast.advance hq hn, past_past, Option.bind_some, hplace]
    rfl

/-- The whole character is taken, however many of its bytes were. -/
theorem unexpected (hsource : b.source = String.ofList (before ++ c :: cs)) (hstart : b.start = (encode before).length) :
    b.unexpected = some (.error ⟨.unexpectedCharacter c, b.line⟩, { b with place := b.start + (encode [c]).length }) := by
  have hslice : slice? b.source b.start (bytes b.source).length = some (String.ofList (c :: cs)) := by
    have := slice?_append before (c :: cs) []
    rw [List.append_nil, ← hsource, ← hstart] at this
    rw [← this, hsource, bytes_ofList]
  have hsize : (encode [c]).length = c.utf8Size := by simp
  rw [ByteLexer.unexpected, hslice, hsize]
  simp

/-! ## One lexeme -/

theorem pair_second {p : Lexeme.Pair} (hp : Lexeme.pair? c = some p) :
    p.second.toNat < 128 ∧ p.second ≠ '\n' ∧ p.second ≠ charOf 0 := by
  unfold Lexeme.pair? at hp
  split at hp <;> cases hp <;> decide

theorem scanPair (h : At before [c] cs b) {p : Lexeme.Pair} (hp : Lexeme.pair? c = some p) :
    (∃ k u v, cs = u ++ v ∧ Lexeme.scanPair p c cs = ofToken k (c :: u) v ∧
      (b.takeIf p.second).map (fun (taken, b) => (if taken then some p.together else p.alone, b)) = some (some k, b.past u)) ∨
    (Lexeme.scanPair p c cs = Lexeme.unexpected c cs ∧
      (b.takeIf p.second).map (fun (taken, b) => (if taken then some p.together else p.alone, b)) = some (none, b)) := by
  obtain ⟨hq, hn, h0⟩ := pair_second hp
  rcases h.takeIf hq hn h0 with ⟨v, rfl, htaken⟩ | ⟨hs, htaken⟩
  · refine .inl ⟨p.together, [p.second], v, rfl, by simp [Lexeme.scanPair], ?_⟩
    rw [htaken]
    rfl
  · have hscan : Lexeme.scanPair p c cs = p.alone.elim (Lexeme.unexpected c cs) fun k => ofToken k [c] cs := by
      cases cs with
      | nil => cases ha : p.alone <;> simp [Lexeme.scanPair, ha]
      | cons d cs =>
        have hd : d ≠ p.second := fun he => hs cs (by rw [he])
        cases ha : p.alone <;> simp [Lexeme.scanPair, ha, hd]
    rw [htaken, hscan]
    cases ha : p.alone with
    | some k => exact .inl ⟨k, [], cs, rfl, rfl, by simp⟩
    | none => exact .inr ⟨rfl, by simp⟩

theorem scanKind (h : At before [c] cs b) (hn : c ≠ '\n') (hq : isQuote c = false) :
    (∃ k u v, cs = u ++ v ∧ Lexeme.scan c cs = ofToken k (c :: u) v ∧ b.scanKind c = some (some k, b.past u)) ∨
    (Lexeme.scan c cs = Lexeme.unexpected c cs ∧ b.scanKind c = some (none, b)) := by
  unfold Lexeme.scan ByteLexer.scanKind
  cases hm : Lexeme.mark? c with
  | some k => exact .inl ⟨k, [], cs, rfl, rfl, by simp [hn]⟩
  | none =>
  cases hp : Lexeme.pair? c with
  | some p => exact h.scanPair hp
  | none =>
  simp only [hq, Bool.false_eq_true, if_false]
  by_cases hc : c = '#'
  · simp only [if_pos hc, h.scanComment]
    exact .inl ⟨.comment, _, _, List.takeWhile_append_dropWhile.symm, rfl, rfl⟩
  simp only [if_neg hc]
  by_cases hd : c.isDigit = true
  · obtain ⟨k, u, v, hcs, hs, hb⟩ := h.scanNumber hd
    simp only [if_pos hd, hb]
    exact .inl ⟨k, u, v, hcs, hs, rfl⟩
  simp only [if_neg hd]
  by_cases hw : startsName c = true
  · simp only [if_pos hw, h.scanWord]
    exact .inl ⟨_, _, _, List.takeWhile_append_dropWhile.symm, rfl, rfl⟩
  · rw [if_neg hw, if_neg hw]
    exact .inr ⟨rfl, rfl⟩

/-- Whatever a lexeme is, the lexer gets past it; a fault is on the line where it starts. -/
inductive Scanned (b : ByteLexer) (c : Char) (cs : List Char) : Prop
  | token (k : Kind) (u v : List Char) : cs = u ++ v → Lexeme.scan c cs = ofToken k (c :: u) v →
      b.scanToken = some (.ok (), { b.past (c :: u) with pending := some k }) → Scanned b c cs
  | string (u v : List Char) : cs = u ++ c :: v →
      Lexeme.scan c cs = ⟨c :: (u ++ [c]), v, .ok ⟨.string, String.ofList u⟩⟩ →
      b.scanToken = some (.ok (), { b.past (c :: (u ++ [c])) with
        text := some ((b.past [c]).place, (b.past (c :: u)).place), pending := some .string }) → Scanned b c cs
  | fault (cause : LexicalCause) : (Lexeme.scan c cs).outcome = .error cause →
      b.scanToken = some (.error ⟨cause, b.line⟩, b.past (Lexeme.scan c cs).taken) → Scanned b c cs

theorem past_one_line (hn : c ≠ '\n') (b : ByteLexer) : (b.past [c]).line = b.line := by
  rw [past_line, List.count_eq_zero.mpr (by simpa using hn.symm), Nat.add_zero]

theorem past_one (hn : c ≠ '\n') (b : ByteLexer) : b.past [c] = { b with place := b.place + (encode [c]).length } := by
  show { b with place := (b.past [c]).place, line := (b.past [c]).line } = _
  rw [past_one_line hn]
  rfl

/-- A line feed counts when its kind is known. -/
theorem scanToken_newline (h : At before [] ('\n' :: cs) b) :
    b.scanToken = some (.ok (), { b.past ['\n'] with pending := some .newline }) := by
  rw [ByteLexer.scanToken, advance_eq (h.ahead_cons (by decide))]
  rfl

theorem start_eq (h : At before [] rest b) : b.start = b.place := by
  rw [h.start, h.place, List.append_nil]

/-- The first byte of a character beyond ASCII is no token. -/
theorem scanToken_beyond (h : At before [] (c :: cs) b) (hc : 128 ≤ c.toNat) :
    b.scanToken = some (.error ⟨.unexpectedCharacter c, b.line⟩, b.past [c]) := by
  obtain ⟨byte, bs, hb⟩ := List.exists_cons_of_ne_nil (String.utf8EncodeChar_ne_nil (c := c))
  have hbyte : 128 ≤ (charOf byte).toNat := by
    rw [toNat_charOf]
    exact le_of_mem_utf8EncodeChar hc (by rw [hb]; simp)
  obtain ⟨hm, hp, hblank, hq, hcomment, -, hd, -⟩ := beyond hbyte
  have hkind (b : ByteLexer) : b.scanKind (charOf byte) = some (none, b) := by
    simp only [ByteLexer.scanKind, hm, hp, if_neg hcomment, hd, startsName_beyond hbyte, Bool.false_eq_true, if_false]
  have hn : c ≠ '\n' := by
    rintro rfl
    exact absurd hc (by decide)
  have hahead : b.ahead = byte :: (bs ++ encode cs) := by rw [h.ahead, encode_cons, hb, List.cons_append]
  have hsource : b.source = String.ofList (before ++ c :: cs) := by rw [h.source, List.append_nil]
  rw [ByteLexer.scanToken, advance_eq hahead]
  simp only [Option.bind_eq_bind, Option.bind_some, hblank, hq, hkind, Bool.false_eq_true, if_false]
  rw [unexpected (b := { b with place := b.place + 1 }) hsource h.start, past_one hn, ← h.start_eq]

theorem scanToken_quote (h : At before [] (c :: cs) b) (hq : isQuote c = true) : Scanned b c cs := by
  obtain ⟨hc, hn, hb, hscan⟩ : c.toNat < 128 ∧ c ≠ '\n' ∧ isBlank c = false ∧
      Lexeme.scan c cs = Lexeme.scanString c cs := by
    simp only [isQuote, Bool.or_eq_true, beq_iff_eq] at hq
    rcases hq with rfl | rfl <;> exact ⟨by decide, by decide, by decide, rfl⟩
  have htoken : b.scanToken = (b.past [c]).scanString c.toUInt8 := by
    rw [ByteLexer.scanToken, h.advance hc hn]
    simp only [Option.bind_eq_bind, Option.bind_some, charOf_toUInt8 hc, hb, hq, Bool.false_eq_true, if_false, if_true]
  have hnext : At before [c] cs (b.past [c]) := h.next
  rcases hnext.scanString hc hn with ⟨v, hd, hs⟩ | ⟨hd, hs⟩
  · refine .string (cs.takeWhile (· != c)) v ?_ ?_ ?_
    · rw [← hd, List.takeWhile_append_dropWhile]
    · rw [hscan, Lexeme.scanString, hd]
    · have hfrom : (b.past [c]).start + 1 = (b.past [c]).place := by
        rw [past_start, past_place, h.start_eq, encode_cons, utf8EncodeChar_ascii hc]
        rfl
      have hto : (b.past [c]).place + (encode (cs.takeWhile (· != c))).length = (b.past (c :: cs.takeWhile (· != c))).place := by
        rw [← past_place, past_past]
        rfl
      rw [htoken, hs, hfrom, hto, past_past]
      rfl
  · refine .fault .unterminatedString ?_ ?_
    · rw [hscan, Lexeme.scanString, hd]
    · have hall := List.takeWhile_append_dropWhile (p := (· != c)) (l := cs)
      rw [hd, List.append_nil] at hall
      rw [htoken, hs, hscan, Lexeme.scanString, hd, past_past, past_one_line hn, hall]
      rfl

theorem scanToken_kind (h : At before [] (c :: cs) b) (hc : c.toNat < 128) (hn : c ≠ '\n') (hb : isBlank c = false)
    (hq : isQuote c = false) : Scanned b c cs := by
  have hnext : At before [c] cs (b.past [c]) := h.next
  have htoken {found : Option Kind} {b' : ByteLexer} (hk : (b.past [c]).scanKind c = some (found, b')) :
      b.scanToken = found.elim b'.unexpected fun k => some (.ok (), { b' with pending := some k }) := by
    rw [ByteLexer.scanToken, h.advance hc hn]
    simp only [Option.bind_eq_bind, Option.bind_some, charOf_toUInt8 hc, hb, hq, Bool.false_eq_true, if_false, hk]
    cases found <;> rfl
  rcases hnext.scanKind hn hq with ⟨k, u, v, hcs, hscan, hk⟩ | ⟨hscan, hk⟩
  · refine .token k u v hcs hscan ?_
    rw [htoken hk, past_past]
    rfl
  · refine .fault (.unexpectedCharacter c) (by rw [hscan]; rfl) ?_
    have hsource : (b.past [c]).source = String.ofList (before ++ c :: cs) := by rw [hnext.source]; simp
    rw [htoken hk, hscan]
    refine (unexpected hsource hnext.start).trans ?_
    show some (_, { b with place := _, line := (b.past [c]).line }) = some (_, b.past [c])
    rw [past_one_line hn, past_one hn, ← h.start_eq]

theorem scanToken (h : At before [] (c :: cs) b) (hb : isBlank c = false) : Scanned b c cs := by
  by_cases hc : c.toNat < 128
  case neg =>
    have hc := Nat.not_lt.mp hc
    obtain ⟨hm, hp, -, hq, hcomment, -, hd, -⟩ := beyond hc
    have hscan : Lexeme.scan c cs = Lexeme.unexpected c cs := by
      simp only [Lexeme.scan, hm, hp, if_neg hcomment, hq, hd, startsName_beyond hc, Bool.false_eq_true, if_false]
    exact .fault (.unexpectedCharacter c) (by rw [hscan]; rfl) (by rw [hscan]; exact h.scanToken_beyond hc)
  by_cases hn : c = '\n'
  · subst hn
    exact .token .newline [] cs rfl rfl h.scanToken_newline
  cases hq : isQuote c with
  | true => exact h.scanToken_quote hq
  | false => exact h.scanToken_kind hc hn hb hq

end At

end ScriptLang.ByteLexer
