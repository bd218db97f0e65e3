/-
  ScriptLang.Proofs.Lexer.Eager — reading while lexing, and after it.

  A program is read while its text is lexed, as far as reading asks for tokens. Nothing is
  different when all the text is lexed first and its items are read after that.
  - `Lexer.exists_iterates`: the items of a text are tokens and then the end token or a fault.
  - `parse_eager`: they are read as the text is; a text that does not lex is no program, and
    the only lexical fault of reading is the one that ends its items.
-/

import ScriptLang.Command.Run
import ScriptLang.Proofs.Grammar.Blame
import ScriptLang.Proofs.Stream.Tape

namespace ScriptLang

/-- The results of an iteration that goes on until it is over. -/
inductive Lexer.Iterates : Lexer → List (Except LexicalFault Token) → Prop
  | ended {l : Lexer} : l.step.1 = none → Iterates l []
  | more {l l' : Lexer} {r : Except LexicalFault Token} {rs : List (Except LexicalFault Token)} :
      l.step = (some r, l') → Iterates l' rs → Iterates l (r :: rs)

namespace Lexer

variable {l : Lexer}

theorem next_finished (l : Lexer) : l.next.2.finished = l.finished := by
  unfold next
  split <;> rfl

theorem step_eq (hl : l.finished = false) :
    l.step = (some l.next.1, { l.next.2 with finished := isFinal l.next.1 }) := by
  unfold step
  rw [if_neg (by simp [hl])]

/-- A fresh lexer gives tokens and then a final item, one by one or all at once. -/
theorem exists_iterates (l : Lexer) (hl : l.finished = false) : ∃ w last, l.items.map Prod.fst = w.map .ok ++ [last] ∧
    isFinal last = true ∧ Iterates l (w.map .ok ++ [last]) ∧ Gives pull l w (last.mapError .lexical) := by
  induction hn : l.rest.length using Nat.strongRecOn generalizing l with
  | ind n ih =>
    rw [items]
    cases hf : isFinal l.next.1 with
    | true =>
      refine ⟨[], l.next.1, by simp [hf], hf, .more (step_eq hl) (.ended ?_), .final rfl ?_⟩
      · simp [step, hf]
      · revert hf
        cases l.next.1 <;> exact id
    | false =>
      cases ht : l.next.1 with
      | error fault => rw [ht] at hf; cases hf
      | ok t =>
        have hlt := next_rest_length_lt (ne_endOfText_of_not_final hf)
        obtain ⟨w, last, hw, hlast, hi, hg⟩ := ih _ (hn ▸ hlt) l.next.2 ((next_finished l).trans hl) rfl
        have hnext : { l.next.2 with finished := isFinal l.next.1 } = l.next.2 := by
          rw [hf, ← hl, ← next_finished l]
        have hk : t.kind ≠ .endOfText := fun he => by simp [ht, isFinal, he] at hf
        refine ⟨t :: w, last, ?_, hlast, .more ?_ hi, .token (?_ : l.pull = (_, l.next.2)) hk hg⟩
        · rw [ht] at hf
          simp [ht, hf, hw]
        · rw [step_eq hl, hnext, ht]
        · rw [pull, ht]
          rfl

end Lexer

/-- A lexical fault of reading a text is the one that ends its tokens. -/
theorem parse_lexical {l : Lexer} {w : List Token} {last : Except Fault Token} {fault : LexicalFault}
    (hg : Gives Lexer.pull l.rewind w last) (h : parseSource l = .error (.lexical fault)) : last = .error (.lexical fault) := by
  have hp := Lookahead.parse_of_reads (s := Lookahead.ofSource l) hg (Grammar.wholeScope_tracks _)
  obtain ⟨s', hs⟩ : ∃ s', (Lookahead.ofSource l).parse = (.error (.lexical fault), s') := ⟨_, Prod.ext h rfl⟩
  rw [hs] at hp
  rcases hp with hl | ⟨_, -, hb⟩
  · exact hl
  · rcases hb with hb | ⟨t, ht, hr⟩ | ⟨t, ht, -⟩
    · cases hb
    · exact absurd (Lexer.lexical_of_gives hg t ht).regular hr
    · cases ht

/-- The listing of a text fails with the fault that ends its items, if one does. -/
theorem Command.tokenize_of_items {l : Lexer} {w : List Token} {last : Except LexicalFault Token}
    (h : l.items.map Prod.fst = w.map .ok ++ [last]) : (∀ e, last = .ok e → (tokenize l).code = 0) ∧
      ∀ fault, last = .error fault → (tokenize l).errors = line fault.message := by
  have tokens (g : Except LexicalFault Token → Option String) (hg : ∀ t, g (.ok t) = none) :
      (w.map Except.ok).filterMap g = [] := by
    refine List.filterMap_eq_nil_iff.mpr ?_
    simp [hg]
  constructor
  · rintro e rfl
    simp only [tokenize, h, List.filterMap_append]
    rw [tokens _ fun _ => rfl]
    rfl
  · rintro fault rfl
    simp only [tokenize, h, List.filterMap_append]
    rw [tokens _ fun _ => rfl]
    exact String.empty_append

/-- A text is read as the items are that it lexes to, up to its end or the first fault. If there
    is a fault, the text is no program, and no other lexical fault is reported. So a text that
    is read is also listed, and a lexical fault is worded the same for both. -/
theorem parse_eager (text : String) : ∃ (found : List (Except LexicalFault Token)) (w : List Token)
    (last : Except LexicalFault Token), found = w.map .ok ++ [last] ∧
    Lexer.Iterates (Lexer.ofText text) found ∧ (∀ t ∈ w, t.kind ≠ .endOfText) ∧ Lexer.isFinal last = true ∧
    parse text = parseSource (Replay.ofItems (found.map (Except.mapError .lexical))) ∧
    (∀ fault, last = .error fault → ∀ b, parse text ≠ .ok b) ∧
    (∀ fault, parse text = .error (.lexical fault) → last = .error fault) ∧
    ∀ json, ((Command.parse json (Lexer.ofText text)).code = 0 → (Command.tokenize (Lexer.ofText text)).code = 0) ∧
      ∀ fault, parse text = .error (.lexical fault) →
        (Command.parse json (Lexer.ofText text)).errors = (Command.tokenize (Lexer.ofText text)).errors := by
  obtain ⟨w, last, hw, hlast, hi, hg⟩ := (Lexer.ofText text).exists_iterates rfl
  obtain ⟨listed, refused⟩ := Command.tokenize_of_items hw
  have fault_last : ∀ fault, parse text = .error (.lexical fault) → last = .error fault := by
    intro fault h
    have hl := parse_lexical (l := Lexer.ofText text) hg h
    cases last <;> cases hl
    rfl
  have ok_last : ∀ b, parse text = .ok b → ∃ e, last = .ok e := by
    intro b h
    have hd := Lookahead.parse_derives (s := Lookahead.ofSource (Lexer.ofText text)) hg
    rw [show (Lookahead.ofSource (Lexer.ofText text)).parse.1 = .ok b from h] at hd
    obtain ⟨-, e, he⟩ := hd
    cases last <;> cases he
    exact ⟨e, rfl⟩
  refine ⟨_, w, last, rfl, hi, hg.kind_ne, hlast, ?_, ?_, fault_last, ?_⟩
  · have replayed : Gives TokenStream.pull (Replay.ofItems ((w.map Except.ok ++ [last]).map (Except.mapError .lexical)))
        w (last.mapError .lexical) := by
      refine Replay.gives_items (v := [last.mapError .lexical]) ?_ rfl hg.kind_ne ?_
      · show (w.map Except.ok ++ [last]).map (Except.mapError Fault.lexical) = _
        simp only [List.map_append, List.map_map]
        rfl
      · revert hlast
        cases last <;> exact id
    exact (Lookahead.parse_congr (Lookahead.ofSource (Lexer.ofText text)) (Lookahead.ofSource _) hg replayed).1
  · intro fault hl b hb
    obtain ⟨e, he⟩ := ok_last b hb
    cases hl.symm.trans he
  · intro json
    constructor
    · intro hcode
      cases hp : parse text with
      | ok b =>
        obtain ⟨e, he⟩ := ok_last b hp
        exact listed e he
      | error f =>
        rw [Command.parse, show parseSource (Lexer.ofText text) = _ from hp] at hcode
        cases hcode
    · intro fault hp
      rw [refused fault (fault_last fault hp), Command.parse, show parseSource (Lexer.ofText text) = _ from hp]
      rfl

end ScriptLang
