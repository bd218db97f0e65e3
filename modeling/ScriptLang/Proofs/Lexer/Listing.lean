/-
  ScriptLang.Proofs.Lexer.Listing — the lines of a token listing.

  The listing has every token as it is displayed, and a line feed after it. A line break is
  displayed as an escape, and of the other tokens only a string can have a line feed in its
  text. So a token is one line of the listing, but for a string that goes on over several.
  - `Lexer.display_count`: the line feeds in the display of a token are those in its string.
  - `Command.tokenize_lines`: the lines of a listing are those of its tokens, in their order; they
    are the tokens, one on each line, if and only if no string has a line feed.
-/

import ScriptLang.Proofs.Lexer.Calls

namespace ScriptLang

open Lexeme
open Token (Kind)

/-! ## Tokens on display -/

/-- How often a token goes on on another line: a string does at every line feed in it. -/
def Token.continuations (t : Token) : Nat := if t.kind = .string then t.text.toList.count '\n' else 0

/-- How often the tokens go on on another line. -/
def Token.allContinuations : List Token → Nat
  | [] => 0
  | t :: ts => t.continuations + allContinuations ts

theorem Token.allContinuations_eq_zero {ts : List Token} (h : allContinuations ts = 0) : ∀ t ∈ ts, t.continuations = 0 := by
  induction ts with
  | nil => nofun
  | cons t ts ih =>
    obtain ⟨ht, hts⟩ := Nat.add_eq_zero_iff.mp h
    exact List.forall_mem_cons.mpr ⟨ht, ih hts⟩

theorem Token.Kind.label_count (k : Kind) : k.label.toList.count '\n' = 0 := by cases k <;> decide

/-- Of tokens, only a line break and a string have line feeds in their texts. -/
theorem Token.OfClass.newline_not_mem {t : Token} (h : t.OfClass) (hb : t.kind ≠ .newline) (hs : t.kind ≠ .string) :
    '\n' ∉ t.text.toList := by
  have spelled : ∀ k : Kind, k ≠ .newline → ∀ u ∈ k.spellings, '\n' ∉ u := by intro k; cases k <;> decide
  intro hn
  unfold Token.OfClass at h
  -- Names, numbers, dates, strings, comments, and tokens that are spelled in one way.
  split at h
  · obtain ⟨c, cs, htext, hc, hcs⟩ := h.identifier
    rw [htext] at hn
    rcases List.mem_cons.mp hn with rfl | hn
    · cases hc
    · cases hcs _ hn
  · obtain ⟨parts, hp, htext⟩ := h
    rcases hp.digit_or_point _ (htext ▸ hn) with hd | hd <;> cases hd
  · obtain ⟨day, month, year, hd, htext⟩ := h
    have digit (hn : '\n' ∈ day ++ month ++ year) : False := by cases hd.digits _ hn
    refine digit ?_
    simpa [htext] using hn
  · exact hs ‹_›
  · obtain ⟨cs, htext, hcs⟩ := h
    simp [htext, hcs] at hn
  · exact spelled _ hb _ h hn

theorem Token.OfClass.display_count {t : Token} (h : t.OfClass) : t.display.toList.count '\n' = t.continuations := by
  unfold Token.display Token.continuations
  split
  · rename_i hk
    rw [hk, if_neg (by decide)]
    decide
  · rename_i hk
    simp only [String.toList_append, List.count_append, t.kind.label_count]
    split
    · exact Nat.zero_add _
    · rename_i hs
      rw [List.count_eq_zero.mpr (h.newline_not_mem hk hs)]
      decide

theorem Lexer.display_count {l : Lexer} {t : Token} (h : l.next.1 = .ok t) :
    t.display.toList.count '\n' = t.continuations := by
  rcases l.next_cases with ⟨-, hn⟩ | ⟨c, cs, -, -, hn⟩
  · rw [hn] at h
    cases h
    decide
  · rw [hn] at h
    cases ho : (scan c cs).outcome with
    | error cause => rw [ho] at h; cases h
    | ok u =>
      rw [ho] at h
      cases h
      exact (scan_ofClass ho).display_count

/-! ## Lines -/

/-- The lines of a text, each without the line feed that ends it. -/
def linesOf (text : List Char) : List (List Char) := (text.splitOn '\n').dropLast

theorem linesOf_append (x y : List Char) : linesOf (x ++ '\n' :: y) = x.splitOn '\n' ++ linesOf y := by
  rw [linesOf, List.splitOn_append_cons_self, List.dropLast_append_of_ne_nil (List.splitOn_ne_nil _ _)]
  rfl

theorem length_splitOn (x : List Char) : (x.splitOn '\n').length = x.count '\n' + 1 := by
  induction x with
  | nil => rfl
  | cons c x ih =>
    rw [List.splitOn_cons_eq_if_modifyHead, List.count_cons]
    split
    · rw [List.length_cons, ih]
    · rw [List.length_modifyHead, ih, Nat.add_zero]

/-- There are as many lines as line feeds. -/
theorem length_linesOf (x : List Char) : (linesOf x).length = x.count '\n' := by
  rw [linesOf, List.length_dropLast, length_splitOn]
  omega

/-! ## Listings -/

/-- The tokens that an iteration gives. -/
def Lexer.tokens (l : Lexer) : List Token := (l.items.map Prod.fst).filterMap Except.toOption

theorem Lexer.exists_next_of_items {l : Lexer} : ∀ r ∈ l.items.map Prod.fst, ∃ l' : Lexer, l'.next.1 = r := by
  induction hn : l.rest.length using Nat.strongRecOn generalizing l with
  | ind n ih =>
    intro r hr
    rw [items] at hr
    cases hf : isFinal l.next.1 with
    | true =>
      simp only [hf, if_true, List.map_singleton, List.mem_singleton] at hr
      exact ⟨l, hr.symm⟩
    | false =>
      simp only [hf, Bool.false_eq_true, if_false, List.map_cons, List.mem_cons] at hr
      rcases hr with hr | hr
      · exact ⟨l, hr.symm⟩
      · have hlt := next_rest_length_lt (ne_endOfText_of_not_final hf)
        exact ih _ (hn ▸ hlt) rfl r hr

theorem Lexer.tokens_display_count {l : Lexer} : ∀ t ∈ l.tokens, t.display.toList.count '\n' = t.continuations := by
  intro t ht
  obtain ⟨r, hr, ht⟩ := List.mem_filterMap.mp ht
  obtain ⟨l', hl'⟩ := exists_next_of_items r hr
  refine display_count (l := l') ?_
  rw [hl']
  cases r with
  | error fault => cases ht
  | ok u => cases ht; rfl

/-- A listing has each token and a line feed after it. -/
theorem Command.tokenize_output (l : Lexer) :
    (tokenize l).output.toList = l.tokens.flatMap fun t => t.display.toList ++ ['\n'] := by
  have listed (f : Except LexicalFault Token → Option String) (hok : ∀ t, f (.ok t) = some (line t.display))
      (herror : ∀ fault, f (.error fault) = none) :
      (l.items.map Prod.fst).filterMap f = l.tokens.map fun t => line t.display := by
    rw [Lexer.tokens, List.map_filterMap]
    congr
    funext r
    cases r with
    | error fault => exact herror fault
    | ok t => exact hok t
  have houtput : (tokenize l).output = String.join (l.tokens.map fun t => line t.display) :=
    congrArg String.join (listed _ (fun _ => rfl) fun _ => rfl)
  rw [houtput, String.toList_join, List.flatMap_map]
  simp [line]

/-- Texts with a line feed after each have the lines of all of them. -/
theorem linesOf_flatMap {α : Type} (text : α → List Char) (xs : List α) :
    linesOf (xs.flatMap fun a => text a ++ ['\n']) = xs.flatMap fun a => (text a).splitOn '\n' := by
  induction xs with
  | nil => rfl
  | cons a xs ih => simp only [List.flatMap_cons, List.append_assoc, List.singleton_append, linesOf_append, ih]

/-- A listing has a line for each token and one more wherever a string goes on on another line. -/
theorem Command.length_tokenize (l : Lexer) :
    (linesOf (tokenize l).output.toList).length = l.tokens.length + Token.allContinuations l.tokens := by
  rw [length_linesOf, tokenize_output]
  have hcount : ∀ t ∈ l.tokens, t.display.toList.count '\n' = t.continuations := Lexer.tokens_display_count
  revert hcount
  generalize l.tokens = ts
  intro hcount
  induction ts with
  | nil => rfl
  | cons t ts ih =>
    obtain ⟨ht, hts⟩ := List.forall_mem_cons.mp hcount
    have := ih hts
    simp only [List.flatMap_cons, List.count_append, List.count_singleton_self, List.length_cons, ht] at this ⊢
    rw [this, Token.allContinuations]
    omega

/-- The lines of a listing are those of the displayed tokens, in their order. A displayed token
    has a line feed for each one in its string, and no other, so the listing has as many lines
    more than tokens, and it is the tokens, one on each line, if and only if no string has one. -/
theorem Command.tokenize_lines (l : Lexer) :
    (∀ t, l.next.1 = .ok t → t.display.toList.count '\n' = t.continuations) ∧
    linesOf (tokenize l).output.toList = l.tokens.flatMap (fun t => t.display.toList.splitOn '\n') ∧
    (linesOf (tokenize l).output.toList).length = l.tokens.length + Token.allContinuations l.tokens ∧
    (linesOf (tokenize l).output.toList = l.tokens.map (fun t => t.display.toList) ↔
      ∀ t ∈ l.tokens, t.continuations = 0) := by
  have hlines : linesOf (tokenize l).output.toList = l.tokens.flatMap fun t => t.display.toList.splitOn '\n' := by
    rw [tokenize_output, linesOf_flatMap]
  have hlength := length_tokenize l
  refine ⟨fun t => Lexer.display_count, hlines, hlength, fun h t ht => ?_, fun h => ?_⟩
  · rw [h, List.length_map] at hlength
    exact Token.allContinuations_eq_zero (by omega) t ht
  · have alone : ∀ t ∈ l.tokens, t.display.toList.splitOn '\n' = [t.display.toList] := fun t ht =>
      List.splitOn_eq_singleton (List.count_eq_zero.mp ((Lexer.tokens_display_count t ht).trans (h t ht)))
    rw [hlines, List.flatMap_def, List.map_congr_left alone, ← List.flatMap_def, ← List.map_eq_flatMap]

/-- A string on one line, a comment and a line break are a line each. -/
theorem Command.tokenize_lines_commented : linesOf (tokenize (Lexer.ofText "'b'# c\n")).output.toList =
    ["STRING b".toList, "COMMENT # c".toList, "NEWLINE \\n".toList, "EOT ".toList] := by
  have htokens : (Lexer.ofText "'b'# c\n").tokens =
      [⟨.string, "b"⟩, ⟨.comment, "# c"⟩, ⟨.newline, "\n"⟩, Token.endOfText] := by
    decide +kernel
  refine ((tokenize_lines (Lexer.ofText "'b'# c\n")).2.2.2.mpr ?_).trans ?_
  · rw [htokens]
    decide
  · rw [htokens]
    rfl

/-- A string over two lines: its two tokens, the string and the end, are listed on three lines. -/
theorem Command.tokenize_two_lines : (Lexer.ofText "\"a\nb\"").tokens = [⟨.string, "a\nb"⟩, Token.endOfText] ∧
    '\n' ∈ (Token.display ⟨.string, "a\nb"⟩).toList ∧
    linesOf (tokenize (Lexer.ofText "\"a\nb\"")).output.toList = ["STRING a".toList, "b".toList, "EOT ".toList] ∧
    (linesOf (tokenize (Lexer.ofText "\"a\nb\"")).output.toList).length ≠ (Lexer.ofText "\"a\nb\"").tokens.length := by
  have htokens : (Lexer.ofText "\"a\nb\"").tokens = [⟨.string, "a\nb"⟩, Token.endOfText] := by
    decide +kernel
  refine ⟨htokens, by decide, ?_, ?_⟩
  · rw [tokenize_output, htokens]
    decide
  · rw [length_tokenize, htokens]
    decide

end ScriptLang
