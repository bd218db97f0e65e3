/-
  ScriptLang.Proofs.Lexer.Calls — a lexer under any calls.

  A caller asks for the next token, steps the iterator or rewinds, in any order, also after a
  fault and after the end. `offset` counts the bytes of the text that were read.
  - `next_taken`: what one call of `next` takes of the text, and what it makes of it.
  - `Reached.answer` / `Reached.run`: what was read and what is left make up the text, and the
    line counts the line feeds read, after one call and after any number.
  - `countP_answers_le`: a result that is no end token costs a byte at least.
  - `run_progress`: whatever was called before, `next` gets on or is at the end for good, and an
    iteration gives the results of `next` up to the first end token or fault and then none.
-/

import ScriptLang.Proofs.Lexer.Eager
import ScriptLang.Proofs.Lexer.Classes

namespace ScriptLang.Lexer

open Lexeme

/-- What a caller may ask for. -/
inductive Call where
  | next
  /-- The iterator's next result. -/
  | step
  | rewind
  deriving DecidableEq, Repr

/-- The result of a call, if it gives one, and the lexer after it. -/
def answer (l : Lexer) : Call → Option (Except LexicalFault Token) × Lexer
  | .next => (some l.next.1, l.next.2)
  | .step => l.step
  | .rewind => (none, l.rewind)

def run (l : Lexer) (calls : List Call) : Lexer := calls.foldl (fun l c => (l.answer c).2) l

/-- The results of calls, one after another. -/
def answers (l : Lexer) : List Call → List (Option (Except LexicalFault Token))
  | [] => []
  | c :: calls => (l.answer c).1 :: (l.answer c).2.answers calls

/-- An end token. -/
def isEnd : Except LexicalFault Token → Bool
  | .ok t => t.kind == .endOfText
  | .error _ => false

/-- A result that is a token of the text or a fault. -/
def advances : Option (Except LexicalFault Token) → Bool
  | some r => !isEnd r
  | none => false

/-- The bytes not yet read. -/
def left (l : Lexer) : Nat := (String.ofList l.rest).utf8ByteSize

/-- The bytes read. -/
def offset (l : Lexer) : Nat := (String.ofList l.source).utf8ByteSize - l.left

variable {l l' : Lexer}

/-! ## One call -/

theorem size_append (cs ds : List Char) :
    (String.ofList (cs ++ ds)).utf8ByteSize = (String.ofList cs).utf8ByteSize + (String.ofList ds).utf8ByteSize := by
  rw [String.ofList_append, String.utf8ByteSize_append]

theorem size_pos {cs : List Char} (h : cs ≠ []) : 0 < (String.ofList cs).utf8ByteSize := by
  refine Nat.pos_of_ne_zero ?_
  rw [Ne, String.utf8ByteSize_eq_zero_iff]
  simpa using h

theorem count_blanks (cs : List Char) : (cs.takeWhile isBlank).count '\n' = 0 := by
  refine List.count_eq_zero.mpr ?_
  intro h
  exact absurd (List.all_eq_true.mp List.all_takeWhile _ h) (by decide)

/-- After blanks a lexeme is taken, or nothing is left and `next` gives the end token. -/
theorem next_cases (l : Lexer) :
    (l.rest.dropWhile isBlank = [] ∧ l.next = (.ok Token.endOfText, { l with rest := [] })) ∨
    ∃ c cs, l.rest.dropWhile isBlank = c :: cs ∧ isBlank c = false ∧
      l.next = ((scan c cs).outcome.mapError fun cause => ⟨cause, l.line⟩, { l with
        lexeme := c :: cs, rest := (scan c cs).rest, line := l.line + (scan c cs).taken.count '\n' }) := by
  have hb := List.head?_dropWhile_not isBlank l.rest
  unfold next
  cases hd : l.rest.dropWhile isBlank with
  | nil => exact .inl ⟨rfl, rfl⟩
  | cons c cs =>
    rw [hd] at hb
    exact .inr ⟨c, cs, rfl, by simpa using hb, rfl⟩

theorem isEnd_scan (c : Char) (cs : List Char) (line : Nat) :
    isEnd ((scan c cs).outcome.mapError fun cause => ⟨cause, line⟩) = false := by
  cases ho : (scan c cs).outcome with
  | error cause => rfl
  | ok t => exact beq_eq_false_iff_ne.mpr (scan_ofClass ho).kind_ne.1

/-- What `next` takes of the text: blanks and a lexeme, or all that is left. -/
theorem next_taken (l : Lexer) : ∃ taken, taken ++ l.next.2.rest = l.rest ∧ l.next.2.source = l.source ∧
    l.next.2.line = l.line + taken.count '\n' ∧
    ((l.next.1 = .ok Token.endOfText ∧ l.next.2.rest = []) ∨ (isEnd l.next.1 = false ∧ taken ≠ [])) := by
  have hsplit : l.rest.takeWhile isBlank ++ l.rest.dropWhile isBlank = l.rest := List.takeWhile_append_dropWhile
  have hcount := count_blanks l.rest
  rcases l.next_cases with ⟨hd, hn⟩ | ⟨c, cs, hd, -, hn⟩
  · rw [hd] at hsplit
    rw [hn]
    exact ⟨_, hsplit, rfl, by rw [hcount]; rfl, .inl ⟨rfl, rfl⟩⟩
  · rw [hd, ← taken_append_rest c cs, ← List.append_assoc] at hsplit
    rw [hn]
    refine ⟨_, hsplit, rfl, by rw [List.count_append, hcount, Nat.zero_add], .inr ⟨isEnd_scan c cs l.line, ?_⟩⟩
    simp [taken_ne_nil]

theorem left_next_lt (h : isEnd l.next.1 = false) : l.next.2.left < l.left := by
  obtain ⟨taken, ht, -, -, hend⟩ := l.next_taken
  rcases hend with ⟨he, -⟩ | ⟨-, hne⟩
  · rw [he] at h
    cases h
  · rw [left, left, ← ht, size_append]
    have := size_pos hne
    omega

theorem next_of_rest_nil (h : l.rest = []) : l.next = (.ok Token.endOfText, l) := by
  obtain ⟨source, lexeme, rest, line, finished⟩ := l
  cases h
  rfl

theorem step_of_finished (h : l.finished = true) : l.step = (none, l) := by
  unfold step
  rw [if_pos h]

/-- A step gives nothing, or what `next` gives. -/
theorem step_cases (l : Lexer) : (l.finished = true ∧ l.step = (none, l)) ∨
    (l.finished = false ∧ l.step = (some l.next.1, { l.next.2 with finished := isFinal l.next.1 })) := by
  cases hl : l.finished with
  | true => exact .inl ⟨rfl, step_of_finished hl⟩
  | false => exact .inr ⟨rfl, step_eq hl⟩

/-! ## Reached states -/

/-- `l` has read `read` of the text. -/
structure Reached (text read : List Char) (l : Lexer) : Prop where
  source : l.source = text
  split : read ++ l.rest = text
  line : l.line = 1 + read.count '\n'

namespace Reached

variable {text read : List Char}

theorem ofChars (text : List Char) : Reached text [] (ofChars text) := ⟨rfl, rfl, rfl⟩

theorem rewind_eq (h : Reached text read l) : l.rewind = Lexer.ofChars text := by
  rw [Lexer.rewind, h.source]

theorem finished (h : Reached text read l) (finished : Bool) : Reached text read { l with finished } :=
  ⟨h.source, h.split, h.line⟩

theorem next (h : Reached text read l) : ∃ taken, Reached text (read ++ taken) l.next.2 := by
  obtain ⟨taken, ht, hs, hline, -⟩ := l.next_taken
  refine ⟨taken, hs.trans h.source, ?_, ?_⟩
  · rw [List.append_assoc, ht, h.split]
  · rw [hline, h.line, List.count_append, Nat.add_assoc]

theorem answer (h : Reached text read l) (c : Call) : ∃ read', Reached text read' (l.answer c).2 := by
  obtain ⟨taken, hn⟩ := h.next
  cases c with
  | next => exact ⟨_, hn⟩
  | rewind =>
    refine ⟨[], ?_⟩
    show Reached text [] l.rewind
    exact h.rewind_eq ▸ ofChars text
  | step =>
    show ∃ read', Reached text read' l.step.2
    rcases l.step_cases with ⟨-, hs⟩ | ⟨-, hs⟩
    · exact ⟨read, hs ▸ h⟩
    · rw [hs]
      exact ⟨_, hn.finished _⟩

theorem run (h : Reached text read l) (calls : List Call) : ∃ read', Reached text read' (l.run calls) := by
  induction calls generalizing l read with
  | nil => exact ⟨read, h⟩
  | cons c calls ih =>
    obtain ⟨read', h'⟩ := h.answer c
    exact ih h'

theorem offset_eq (h : Reached text read l) : l.offset = (String.ofList read).utf8ByteSize := by
  rw [offset, left, h.source, ← h.split, size_append, Nat.add_sub_cancel]

theorem offset_add_left (h : Reached text read l) : l.offset + l.left = (String.ofList text).utf8ByteSize := by
  rw [h.offset_eq, left, ← size_append, h.split]

end Reached

/-! ## Calls that do not rewind -/

/-- At the end a lexer stays there. -/
theorem run_of_rest_nil {calls : List Call} (hc : .rewind ∉ calls) (h : l.rest = []) : (l.run calls).rest = [] := by
  induction calls generalizing l with
  | nil => exact h
  | cons c calls ih =>
    obtain ⟨hne, hc⟩ := List.ne_and_not_mem_of_not_mem_cons hc
    refine ih hc ?_
    have hn := next_of_rest_nil h
    cases c with
    | rewind => exact absurd rfl hne
    | next => simp only [answer, hn, h]
    | step =>
      show l.step.2.rest = []
      rcases l.step_cases with ⟨-, hs⟩ | ⟨-, hs⟩
      · rw [hs, h]
      · simp only [hs, hn, h]

/-- An iteration that is over stays over, whatever `next` gives meanwhile. -/
theorem run_of_finished {calls : List Call} (hc : .rewind ∉ calls) (h : l.finished = true) :
    (l.run calls).finished = true := by
  induction calls generalizing l with
  | nil => exact h
  | cons c calls ih =>
    obtain ⟨hne, hc⟩ := List.ne_and_not_mem_of_not_mem_cons hc
    refine ih hc ?_
    cases c with
    | rewind => exact absurd rfl hne
    | next => exact (next_finished l).trans h
    | step =>
      show l.step.2.finished = true
      rcases l.step_cases with ⟨-, hs⟩ | ⟨hl, -⟩
      · rw [hs, h]
      · rw [h] at hl
        cases hl

theorem countP_answer_le {c : Call} (hc : c ≠ .rewind) :
    (if advances (l.answer c).1 then 1 else 0) + (l.answer c).2.left ≤ l.left := by
  have hnext : (if advances (some l.next.1) then 1 else 0) + l.next.2.left ≤ l.left := by
    cases he : isEnd l.next.1 with
    | true =>
      obtain ⟨taken, ht, -⟩ := l.next_taken
      simp only [advances, he, left, ← ht, size_append]
      simp
    | false =>
      have := left_next_lt he
      simp only [advances, he]
      simp
      omega
  cases c with
  | rewind => exact absurd rfl hc
  | next => exact hnext
  | step =>
    show (if advances l.step.1 then 1 else 0) + l.step.2.left ≤ l.left
    rcases l.step_cases with ⟨-, hs⟩ | ⟨-, hs⟩
    · simp [hs, advances]
    · rw [hs]
      exact hnext

theorem countP_answers_le {calls : List Call} (hc : .rewind ∉ calls) : (l.answers calls).countP advances ≤ l.left := by
  induction calls generalizing l with
  | nil => exact Nat.zero_le _
  | cons c calls ih =>
    obtain ⟨hne, hc⟩ := List.ne_and_not_mem_of_not_mem_cons hc
    have := countP_answer_le (l := l) (Ne.symm hne)
    have := ih hc (l := (l.answer c).2)
    rw [answers, List.countP_cons]
    omega

/-! ## Iterations -/

theorem answers_of_finished (h : l.finished = true) (k : Nat) :
    l.answers (List.replicate k .step) = List.replicate k none := by
  induction k with
  | zero => rfl
  | succ k ih => simp only [List.replicate_succ, answers, answer, step_of_finished h, ih]

theorem Iterates.answers {rs : List (Except LexicalFault Token)} (h : Iterates l rs) (k : Nat) :
    l.answers (List.replicate (rs.length + k) .step) = rs.map some ++ List.replicate k none := by
  induction h with
  | @ended l hn =>
    rcases l.step_cases with ⟨hl, -⟩ | ⟨-, hs⟩
    · rw [List.length_nil, Nat.zero_add]
      exact answers_of_finished hl k
    · rw [hs] at hn
      cases hn
  | @more l l' r rs hs _ ih =>
    rw [List.length_cons, Nat.add_right_comm, List.replicate_succ, Lexer.answers, answer, hs, ih]
    rfl

theorem answers_items (l : Lexer) :
    l.answers (List.replicate l.items.length .next) = (l.items.map Prod.fst).map some := by
  induction hn : l.rest.length using Nat.strongRecOn generalizing l with
  | ind n ih =>
    rw [items]
    cases hf : isFinal l.next.1 with
    | true =>
      simp only [hf, if_true]
      rfl
    | false =>
      have hlt := next_rest_length_lt (ne_endOfText_of_not_final hf)
      simp only [hf, Bool.false_eq_true, if_false, List.length_cons, List.replicate_succ, answers, answer,
        ih _ (hn ▸ hlt) l.next.2 rfl, List.map_cons]

/-- A fresh iteration gives the results of `next`: tokens and then a final result. After that it
    gives nothing. -/
theorem exists_answers (l : Lexer) (hl : l.finished = false) : ∃ (w : List Token) (last : Except LexicalFault Token),
    (∀ t ∈ w, t.kind ≠ .endOfText) ∧ isFinal last = true ∧ w.length ≤ l.left ∧
    l.answers (List.replicate (w.length + 1) .next) = (w.map Except.ok ++ [last]).map some ∧
    ∀ k, l.answers (List.replicate (w.length + 1 + k) .step) = (w.map Except.ok ++ [last]).map some ++ List.replicate k none := by
  obtain ⟨w, last, hw, hf, hi, hg⟩ := l.exists_iterates hl
  have hlength : l.items.length = w.length + 1 := by
    rw [← List.length_map Prod.fst, hw]
    simp
  have hnext := l.answers_items
  rw [hw, hlength] at hnext
  refine ⟨w, last, hg.kind_ne, hf, ?_, hnext, fun k => ?_⟩
  · -- Each of the tokens costs a byte.
    have hle : (l.answers (List.replicate (w.length + 1) .next)).countP advances ≤ l.left := countP_answers_le (by simp)
    have hall : ((w.map Except.ok).map some).countP advances = w.length := by
      rw [List.countP_eq_length.mpr, List.length_map, List.length_map]
      simpa [advances, isEnd] using hg.kind_ne
    rw [hnext, List.map_append, List.countP_append, hall] at hle
    omega
  · have hs := hi.answers k
    rwa [List.length_append, List.length_map] at hs

/-! ## Any calls -/

/-- A lexer of `text` gets on at every call of `next` until it is at the end, and its iterator
    is over where it should be. -/
structure Progress (text : String) (l : Lexer) : Prop where
  /-- `next` is at the end, for as long as nobody rewinds; or it moves on. -/
  next : (l.next.1 = .ok Token.endOfText ∧ ∀ calls, .rewind ∉ calls →
      (l.next.2.run calls).offset = text.utf8ByteSize ∧ (l.next.2.run calls).next.1 = .ok Token.endOfText) ∨
    (isEnd l.next.1 = false ∧ l.offset < l.next.2.offset ∧ l.next.2.offset ≤ text.utf8ByteSize)
  /-- Each result that is no end token costs a byte, whichever call gives it. -/
  results : ∀ calls, .rewind ∉ calls → l.offset + (l.answers calls).countP advances ≤ text.utf8ByteSize
  rewind : l.rewind = ofText text
  /-- After a rewind the iterator gives what `next` would give, up to and with the first end token
      or fault, and then none. -/
  iteration : ∃ (w : List Token) (last : Except LexicalFault Token),
    (∀ t ∈ w, t.kind ≠ .endOfText) ∧ isFinal last = true ∧ w.length ≤ text.utf8ByteSize ∧
    l.rewind.answers (List.replicate (w.length + 1) .next) = (w.map Except.ok ++ [last]).map some ∧
    ∀ k, l.rewind.answers (List.replicate (w.length + 1 + k) .step) =
      (w.map Except.ok ++ [last]).map some ++ List.replicate k none
  /-- An iteration that is over is not resumed by calls of `next`. -/
  closed : ∀ r, l.step.1 = some r → isFinal r = true → ∀ calls, .rewind ∉ calls → (l.step.2.run calls).step.1 = none

theorem Reached.progress {text read : List Char} (h : Reached text read l) : Progress (String.ofList text) l := by
  have hsize := h.offset_add_left
  constructor
  case next =>
    obtain ⟨taken, hn⟩ := h.next
    have hnsize := hn.offset_add_left
    obtain ⟨-, -, -, -, ⟨he, hr⟩ | ⟨he, -⟩⟩ := l.next_taken
    · refine .inl ⟨he, fun calls hc => ?_⟩
      have hrest := run_of_rest_nil hc hr
      obtain ⟨read', hrun⟩ := hn.run calls
      have hsplit := hrun.split
      rw [hrest, List.append_nil] at hsplit
      rw [hrun.offset_eq, hsplit, next_of_rest_nil hrest]
      exact ⟨rfl, rfl⟩
    · have hlt := left_next_lt he
      exact .inr ⟨he, by omega, by omega⟩
  case results =>
    intro calls hc
    have := countP_answers_le (l := l) hc
    omega
  case rewind => rw [h.rewind_eq, ofText, String.toList_ofList]
  case iteration =>
    rw [h.rewind_eq]
    exact exists_answers (Lexer.ofChars text) rfl
  case closed =>
    intro r hr hf calls hc
    rcases l.step_cases with ⟨-, hs⟩ | ⟨-, hs⟩
    · rw [hs] at hr
      cases hr
    · rw [hs] at hr
      cases hr
      rw [step_of_finished (run_of_finished hc (by rw [hs]; exact hf))]

/-- Whatever was called before, the lexer of a text gets on, and its iterations end. -/
theorem run_progress (text : String) (calls : List Call) : Progress text ((ofText text).run calls) := by
  obtain ⟨read, h⟩ := (Reached.ofChars text.toList).run calls
  rw [← String.ofList_toList (s := text)]
  simpa [ofText] using h.progress

end ScriptLang.Lexer
