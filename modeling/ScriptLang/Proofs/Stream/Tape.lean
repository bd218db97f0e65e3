/-
  ScriptLang.Proofs.Stream.Tape — every source is read as a list of its items is.

  The tape of a source has its tokens up to the final item, the final item, and last a fault
  that no reader may meet: whoever meets it has read past the final item. `Shadow`: a
  lookahead in a source and one in its tape have the same buffer and the same still to come.
  - `Shadow.pull`: pulls from both give the same, short of the end of the tape.
  - `shadows`: so readers do the same with both, and end with the tape accounted for.
  - `Replay.gives_items`: what fixed items give, a tape among them.
  - `Lookahead.parse_shadows`: no reading of a program comes to the end of the tape.
-/

import ScriptLang.Proofs.Grammar.Parametric
import ScriptLang.Proofs.Grammar.Soundness

namespace ScriptLang

open Grammar

variable {σ : Type} [TokenStream σ] {last : Except Fault Token} {w : List Token}

/-- The source after this many pulls. -/
def pulled : Nat → σ → σ
  | 0, a => a
  | n + 1, a => (TokenStream.pull (pulled n a)).2

/-- Stands for the fault of a source, which readers must not take for one of their own. -/
def mask : Fault := .lexical ⟨.other "", 0⟩

def masked : Except Fault Token → Except Fault Token
  | .ok e => .ok e
  | .error _ => .error mask

/-- Where a tape ends; no reader gets here. -/
def tapeEnd : List (Except Fault Token) := [.error .tooDeep]

/-- The items of a source that gives `w` and then `last`. -/
def tape (w : List Token) (last : Except Fault Token) : List (Except Fault Token) :=
  w.map .ok ++ masked last :: tapeEnd

/-- The source has the rest of the tape still to give. -/
inductive Follows (last : Except Fault Token) (a : σ) : List (Except Fault Token) → Prop
  | on {w : List Token} : Gives TokenStream.pull a w last → Follows last a (tape w last)
  | ended : Follows last a tapeEnd

theorem Follows.ne_nil {a : σ} {q : List (Except Fault Token)} (h : Follows last a q) : q ≠ [] := by
  cases h with
  | on => simp [tape]
  | ended => exact nofun

/-- A lookahead in the source that was at `start`, and one in the tape of `w` and `last`. -/
structure Shadow (start : σ) (w : List Token) (last : Except Fault Token) (s : Lookahead σ) (r : Lookahead Replay) : Prop where
  buffer : s.buffer = r.buffer
  follows : Follows last s.source r.source.rest
  count : ∃ n, s.source = pulled n start ∧ n + r.source.rest.length = w.length + 2

/-- Every item of the tape has been taken, is buffered, or is still to come. -/
def Accounted (w : List Token) (last : Except Fault Token) (r : Lookahead Replay) : Prop :=
  ∃ u, (u ++ r.buffer).map .ok ++ r.source.rest = tape w last

/-- The reading of the source does what the reading of its tape does, unless that comes to the
    end of the tape. -/
def Shadows (start : σ) (w : List Token) (last : Except Fault Token) {α : Type} (m : Reading σ α) (m' : Reading Replay α) : Prop :=
  ∀ s r, Shadow start w last s r → Accounted w last r → match m' r with
    | .ok a r' => ∃ s', m s = .ok a s' ∧ Shadow start w last s' r' ∧ Accounted w last r'
    | .error f r' => f = .tooDeep ∨ ∃ g s', m s = .error g s' ∧ Shadow start w last s' r' ∧
        (g = f ∧ Raised f ∧ Accounted w last r' ∨ last = .error g ∧ f = mask ∧ r'.source.rest = tapeEnd)

section

variable {start : σ} {s : Lookahead σ} {r : Lookahead Replay} {n : Nat} {t : Token} {rest : List (Except Fault Token)}

theorem Replay.pull_cons {item : Except Fault Token} {q : Replay} (h : q.rest = item :: rest) :
    TokenStream.pull q = (item, { q with rest }) := by
  show Replay.next q = _
  simp only [Replay.next, h]

theorem Replay.pull_nil {q : Replay} (h : q.rest = []) : TokenStream.pull q = (.ok Token.endOfText, q) := by
  show Replay.next q = _
  simp only [Replay.next, h]

/-- One item more is pulled from both. -/
theorem Shadow.step {item : Except Fault Token} {a : σ} (h : Shadow start w last s r)
    (hr : r.source.rest = item :: rest) (ha : a = (TokenStream.pull s.source).2) (hf : Follows last a rest) :
    Shadow start w last { s with source := a } { r with source := { r.source with rest } } := by
  obtain ⟨n, hn, hl⟩ := h.count
  refine ⟨h.buffer, hf, n + 1, by rw [ha, hn, pulled], ?_⟩
  rw [hr, List.length_cons] at hl
  show n + 1 + rest.length = w.length + 2
  omega

theorem Shadow.pull (h : Shadow start w last s r) : match Lookahead.pull r with
    | .ok t r' => ∃ s', Lookahead.pull s = .ok t s' ∧ Shadow start w last s' r' ∧ r'.buffer = r.buffer ∧
        r.source.rest = .ok t :: r'.source.rest
    | .error f r' => f = .tooDeep ∨ ∃ g s', Lookahead.pull s = .error g s' ∧ Shadow start w last s' r' ∧
        last = .error g ∧ f = mask ∧ r'.source.rest = tapeEnd := by
  have hfollows := h.follows
  generalize hq : r.source.rest = q at hfollows
  cases hfollows with
  | ended =>
    rw [Lookahead.pull_error (Replay.pull_cons hq)]
    exact .inl rfl
  | on hg =>
    cases hg with
    | token hp hk hg =>
      rw [Lookahead.pull_ok (Replay.pull_cons hq)]
      exact ⟨_, Lookahead.pull_ok hp, h.step hq (by rw [hp]) (.on hg), rfl, rfl⟩
    | final hp hf =>
      have hs := h.step hq (by rw [hp]) .ended
      cases last with
      | ok e =>
        rw [Lookahead.pull_ok (Replay.pull_cons hq)]
        exact ⟨_, Lookahead.pull_ok hp, hs, rfl, rfl⟩
      | error g =>
        rw [Lookahead.pull_error (Replay.pull_cons hq)]
        exact .inr ⟨g, _, Lookahead.pull_error hp, hs, rfl, rfl, rfl⟩

end

/-! ## Steps and readers -/

namespace Shadows

variable {α β : Type} {start : σ}

theorem bind {m : Reading σ α} {m' : Reading Replay α} {g : α → Reading σ β} {g' : α → Reading Replay β}
    (h : Shadows start w last m m') (hg : ∀ a, Shadows start w last (g a) (g' a)) :
    Shadows start w last (m >>= g) (m' >>= g') := by
  intro s r hs hr
  have hm := h s r hs hr
  revert hm
  simp only [Bind.bind, EStateM.bind]
  cases m' r with
  | ok a r' =>
    intro hm
    obtain ⟨s', hm, hs', hr'⟩ := hm
    rw [hm]
    exact hg a s' r' hs' hr'
  | error f r' =>
    intro hm
    rcases hm with hf | ⟨g, s', hm, hend⟩
    · exact .inl hf
    · rw [hm]
      exact .inr ⟨g, s', rfl, hend⟩

theorem fill (n : Nat) : Shadows start w last (Lookahead.fill n) (Lookahead.fill n) := by
  induction n with
  | zero => exact fun s r hs hr => ⟨s, rfl, hs, hr⟩
  | succ n ih =>
    simp only [Lookahead.fill, ← bind_assoc]
    refine bind ?_ fun _ => ih
    intro s r hs hr
    have hp := hs.pull
    revert hp
    simp only [Bind.bind, EStateM.bind]
    cases Lookahead.pull r with
    | error f r' =>
      intro hp
      rcases hp with hf | ⟨g, s', hp, hs', hl, hf, hrest⟩
      · exact .inl hf
      · rw [hp]
        exact .inr ⟨g, s', rfl, hs', .inr ⟨hl, hf, hrest⟩⟩
    | ok t r' =>
      intro hp
      obtain ⟨s', hp, hs', hb, hrest⟩ := hp
      obtain ⟨u, hu⟩ := hr
      rw [hp]
      refine ⟨_, rfl, ⟨congrArg (· ++ [t]) hs'.buffer, hs'.follows, hs'.count⟩, u, ?_⟩
      show (u ++ (r'.buffer ++ [t])).map Except.ok ++ r'.source.rest = tape w last
      rw [← hu, hrest, hb]
      simp

theorem take : Shadows start w last Lookahead.take Lookahead.take := by
  intro s r hs hr
  obtain ⟨u, hu⟩ := hr
  rcases s with ⟨a, b⟩
  rcases r with ⟨q, b'⟩
  obtain rfl : b = b' := hs.buffer
  cases b with
  | cons t b =>
    refine ⟨_, rfl, ⟨rfl, hs.follows, hs.count⟩, u ++ [t], ?_⟩
    rw [← hu]
    simp
  | nil =>
    have hp := hs.pull
    revert hp
    rw [Lookahead.take_nil, Lookahead.take_nil]
    cases Lookahead.pull (⟨q, []⟩ : Lookahead Replay) with
    | error f r' =>
      intro hp
      rcases hp with hf | ⟨g, s', hp, hs', hl, hf, hrest⟩
      · exact .inl hf
      · exact .inr ⟨g, s', hp, hs', .inr ⟨hl, hf, hrest⟩⟩
    | ok t r' =>
      intro hp
      obtain ⟨s', hp, hs', hb, hrest⟩ := hp
      refine ⟨s', hp, hs', u ++ [t], ?_⟩
      rw [← hu, hrest, hb]
      simp

theorem peek (n : Nat) : Shadows start w last (Lookahead.peek n) (Lookahead.peek n) := by
  intro s r hs hr
  have hf := fill (n + 1 - r.buffer.length) s r hs hr
  rw [Lookahead.peek_eq, Lookahead.peek_eq, hs.buffer]
  revert hf
  cases Lookahead.fill (n + 1 - r.buffer.length) r with
  | error f r' =>
    intro hf
    rcases hf with hf | ⟨g, s', hf, hend⟩
    · exact .inl hf
    · rw [hf]
      exact .inr ⟨g, s', rfl, hend⟩
  | ok a r' =>
    intro hf
    obtain ⟨s', hf, hs', hr'⟩ := hf
    rw [hf]
    exact ⟨s', congrArg (fun b => EStateM.Result.ok (b.getD n Token.endOfText) s') hs'.buffer, hs', hr'⟩

end Shadows

/-- Readers do the same with a source and with its tape. -/
theorem shadows (start : σ) (w : List Token) (last : Except Fault Token) : Uniform (Shadows start w last) where
  pure _ s _ hs hr := ⟨s, rfl, hs, hr⟩
  bind := Shadows.bind
  shallow _ _ _ _ _ := .inl rfl
  throw hf s _ hs hr := .inr ⟨_, s, rfl, hs, .inl ⟨rfl, hf, hr⟩⟩
  peek := Shadows.peek
  take := Shadows.take

/-! ## Programs -/

/-- Fixed items give the tokens in front of the first that is final, or of the end where none is. -/
theorem Replay.gives_items {q : Replay} {item : Except Fault Token} {v : List (Except Fault Token)}
    (hq : q.rest = w.map .ok ++ v) (hv : v.headD (.ok Token.endOfText) = item) (hw : ∀ t ∈ w, t.kind ≠ .endOfText)
    (hi : isFinal item = true) : Gives TokenStream.pull q w item := by
  induction w generalizing q with
  | nil =>
    cases v with
    | nil =>
      cases hv
      exact .final (Replay.pull_nil hq) hi
    | cons item v =>
      cases hv
      exact .final (Replay.pull_cons hq) hi
  | cons t w ih =>
    obtain ⟨ht, hw⟩ := List.forall_mem_cons.mp hw
    exact .token (Replay.pull_cons hq) ht (ih rfl hw)

theorem Replay.gives_tokens {q : Replay} (hq : q.rest = w.map .ok) (hw : ∀ t ∈ w, t.kind ≠ .endOfText) :
    Gives TokenStream.pull q w (.ok Token.endOfText) :=
  gives_items (hq.trans (List.append_nil _).symm) rfl hw rfl

/-- The tokens of a source are ahead in its tape. -/
theorem Gives.tape_ahead {a : σ} (h : Gives TokenStream.pull a w last) :
    Ahead (masked last) ⟨Replay.ofItems (tape w last), []⟩ w := by
  have hfinal : isFinal (masked last) = true := by
    cases last with
    | error => rfl
    | ok e => exact beq_iff_eq.mpr h.final_kind
  exact .pending rfl h.kind_ne (Replay.gives_items rfl rfl h.kind_ne hfinal)

theorem Shadow.start {a : σ} (h : Gives TokenStream.pull a w last) :
    Shadow a w last ⟨a, []⟩ ⟨Replay.ofItems (tape w last), []⟩ where
  buffer := rfl
  follows := .on h
  count := ⟨0, rfl, by simp [Replay.ofItems, tape, tapeEnd]⟩

/-- A source is read as its tape is, and is not read past its final item. -/
theorem Lookahead.parse_shadows {s : Lookahead σ} (h : Gives TokenStream.pull (TokenStream.rewind s.source) w last) :
    match wholeScope (8 * w.length + 4) ⟨Replay.ofItems (tape w last), []⟩ with
      | .ok b r => ∃ s', s.parse = (.ok b, s') ∧ Shadow (TokenStream.rewind s.source) w last s' r ∧ Accounted w last r
      | .error f r => ∃ g s', s.parse = (.error g, s') ∧ Shadow (TokenStream.rewind s.source) w last s' r ∧
          (g = f ∧ Raised f ∧ Accounted w last r ∨ last = .error g ∧ f = mask ∧ r.source.rest = tapeEnd) := by
  have hn : 8 * w.length + 4 ≤ depthFor (TokenStream.bound s.source) := by
    have := TokenStream.length_le_bound h
    unfold depthFor
    omega
  have hp : program (σ := σ) (depthFor (TokenStream.bound s.source)) s =
      wholeScope (depthFor (TokenStream.bound s.source)) ⟨TokenStream.rewind s.source, []⟩ := rfl
  have hs := (shadows _ w last).wholeScope hn _ _ (.start h) ⟨[], rfl⟩
  have hd := wholeScope_reads (Nat.le_refl (8 * w.length + 4)) ⟨Replay.ofItems (tape w last), []⟩ h.tape_ahead
  rw [parse, hp]
  revert hs hd
  cases wholeScope (8 * w.length + 4) (⟨Replay.ofItems (tape w last), []⟩ : Lookahead Replay) with
  | ok b r =>
    intro hs _
    obtain ⟨s', hs, hend⟩ := hs
    exact ⟨s', by rw [hs], hend⟩
  | error f r =>
    intro hs hd
    have hf : f ≠ .tooDeep := by
      rcases hd with hd | ⟨_, _, hd⟩
      · cases last <;> cases hd
        decide
      · exact hd
    obtain ⟨g, s', hs, hend⟩ := hs.resolve_left hf
    exact ⟨g, s', by rw [hs], hend⟩

theorem Shadow.exists_pulled {start : σ} {s : Lookahead σ} {r : Lookahead Replay} (h : Shadow start w last s r) :
    s.source = pulled (w.length + 2 - r.source.rest.length) start ∧ r.source.rest.length ≠ 0 := by
  obtain ⟨n, hn, hl⟩ := h.count
  exact ⟨by rw [hn, ← hl, Nat.add_sub_cancel], fun he => h.follows.ne_nil (List.length_eq_zero_iff.mp he)⟩

/-- Sources that give the same items, as far as the first that is final, give the same program
    or fault, after the same number of pulls. -/
theorem Lookahead.parse_congr {τ : Type} [TokenStream τ] (s : Lookahead σ) (s' : Lookahead τ)
    (h : Gives TokenStream.pull (TokenStream.rewind s.source) w last)
    (h' : Gives TokenStream.pull (TokenStream.rewind s'.source) w last) :
    s.parse.1 = s'.parse.1 ∧ ∃ n, n ≤ w.length + 1 ∧ s.parse.2.source = pulled n (TokenStream.rewind s.source) ∧
      s'.parse.2.source = pulled n (TokenStream.rewind s'.source) := by
  have hs := parse_shadows h
  have hs' := parse_shadows h'
  revert hs hs'
  cases wholeScope (8 * w.length + 4) (⟨Replay.ofItems (tape w last), []⟩ : Lookahead Replay) with
  | ok b r =>
    intro hs hs'
    obtain ⟨a, ha, hr, -⟩ := hs
    obtain ⟨a', ha', hr', -⟩ := hs'
    rw [ha, ha']
    refine ⟨rfl, _, ?_, hr.exists_pulled.1, hr'.exists_pulled.1⟩
    have := hr.exists_pulled.2
    omega
  | error f r =>
    intro hs hs'
    obtain ⟨g, a, ha, hr, hg⟩ := hs
    obtain ⟨g', a', ha', hr', hg'⟩ := hs'
    have he : g = g' := by
      rcases hg with ⟨rfl, hf, -⟩ | ⟨hl, rfl, -⟩ <;> rcases hg' with ⟨rfl, hf', -⟩ | ⟨hl', hm, -⟩
      · rfl
      · exact (hm ▸ hf : Raised mask).elim
      · exact hf'.elim
      · exact Except.error.inj (hl.symm.trans hl')
    rw [ha, ha', he]
    refine ⟨rfl, _, ?_, hr.exists_pulled.1, hr'.exists_pulled.1⟩
    have := hr.exists_pulled.2
    omega

end ScriptLang
