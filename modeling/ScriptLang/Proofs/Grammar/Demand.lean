/-
  ScriptLang.Proofs.Grammar.Demand — what a reading pulls from its source, and reading again.

  No reading pulls anything after the first end token or fault of its source. A reading that
  gives a program pulls as far as that end token, which stays in the buffer; one that finds
  fault with a token pulls that token last. A source that can be rewound is read the same
  every time, from whatever state an earlier reading left.
  - `Lookahead.parse_demand`: how far one reading pulls.
  - `Lookahead.parse_again`: every reading of one source rewinds it once, pulls as far as the
    first one, and ends in the same way.
-/

import ScriptLang.Proofs.Grammar.Thrift

namespace ScriptLang

open Grammar
open Token (Kind)

variable {σ : Type} [TokenStream σ] {last : Except Fault Token} {w : List Token}

/-! ## The tape of a source -/

theorem masked_ok {t : Token} (h : masked last = .ok t) : last = .ok t := by
  cases last <;> cases h
  rfl

/-- The token at the end of a part of the tape is one of the source, or its end token. -/
theorem tape_append {u : List Token} {t : Token} {q : List (Except Fault Token)}
    (h : (u ++ [t]).map .ok ++ q = tape w last) :
    (∃ x, w = u ++ t :: x ∧ q = tape x last) ∨ w = u ∧ last = .ok t ∧ q = tapeEnd := by
  induction u generalizing w with
  | nil =>
    cases w with
    | nil =>
      obtain ⟨ht, hq⟩ := List.cons.inj h
      exact .inr ⟨rfl, masked_ok ht.symm, hq⟩
    | cons v w =>
      obtain ⟨ht, hq⟩ := List.cons.inj h
      cases ht
      exact .inl ⟨w, rfl, hq⟩
  | cons v u ih =>
    cases w with
    | nil =>
      obtain ⟨-, hq⟩ := List.cons.inj h
      cases u <;> cases (List.cons.inj hq).1
    | cons v' w =>
      obtain ⟨hv, hq⟩ := List.cons.inj h
      cases hv
      rcases ih hq with ⟨x, rfl, hx⟩ | ⟨rfl, hl⟩
      · exact .inl ⟨x, rfl, hx⟩
      · exact .inr ⟨rfl, hl⟩

theorem tape_length (w : List Token) (last : Except Fault Token) : (tape w last).length = w.length + 2 := by
  simp [tape, tapeEnd]

theorem Follows.gives {a : σ} {x : List Token} (h : Follows last a (tape x last)) : Gives TokenStream.pull a x last := by
  generalize hq : tape x last = q at h
  cases h with
  | ended =>
    have := congrArg List.length hq
    rw [tape_length] at this
    cases this
  | @on w hg =>
    have hw : x = w := (List.map_inj_right fun _ _ he => Except.ok.inj he).mp (List.append_inj' hq rfl).1
    exact hw ▸ hg

/-- A program is read with the end token next, and looked at. -/
theorem wholeScope_ok {n : Nat} {s s' : Lookahead σ} {b : Scope} (h : wholeScope n s = .ok b s') :
    ∃ t q, s'.buffer = t :: q ∧ t.kind = .endOfText := by
  simp only [wholeScope, Bind.bind, EStateM.bind] at h
  cases hs : scope n s with
  | error f s₁ => rw [hs] at h; cases h
  | ok root s₁ =>
    rw [hs] at h
    cases hp : Lookahead.peek 0 s₁ with
    | error f s₂ => simp only [hp] at h; cases h
    | ok t s₂ =>
      simp only [hp] at h
      by_cases hk : t.kind = .endOfText
      · rw [if_pos hk] at h
        cases h
        obtain ⟨ht, -⟩ := Lookahead.peek_buffer hp
        obtain ⟨q, hq⟩ := List.head?_eq_some_iff.mp (List.head?_eq_getElem? ▸ ht)
        exact ⟨t, q, hq, hk⟩
      · rw [if_neg hk] at h
        cases h

/-! ## One reading -/

theorem clean_tape {a : σ} (h : Gives TokenStream.pull a w last) (hw : ∀ t ∈ w, Proper t) :
    Clean ⟨Replay.ofItems (tape w last), []⟩ where
  buffer := nofun
  token t ht := by
    have ht : Except.ok t ∈ tape w last := ht
    simp only [tape, tapeEnd, List.mem_append, List.mem_map, List.mem_cons] at ht
    rcases ht with ⟨u, hu, he⟩ | hl | he | he
    · exact Except.ok.inj he ▸ hw u hu
    · obtain rfl := masked_ok hl.symm
      exact fun hk => by rw [h.final_kind] at hk; cases hk
    · cases he
    · cases he
  fault f hf := by
    have hf : Except.error f ∈ tape w last := hf
    simp only [tape, tapeEnd, List.mem_append, List.mem_map, List.mem_cons] at hf
    rcases hf with ⟨u, -, he⟩ | hl | he | he
    · cases he
    · cases last <;> cases hl
      rfl
    · cases he
      rfl
    · cases he

/-- How far a reading pulls: never past the final item; as far as that for a program; and for a
    fault about a token no further than that token, unless the source gave the fault. -/
theorem Lookahead.parse_demand {s : Lookahead σ} (h : Gives TokenStream.pull (TokenStream.rewind s.source) w last) :
    ∃ n, n ≤ w.length + 1 ∧ s.parse.2.source = pulled n (TokenStream.rewind s.source) ∧
      (∀ b, s.parse.1 = .ok b → ∃ e, last = .ok e ∧ n = w.length + 1 ∧ s.parse.2.buffer = [e]) ∧
      ∀ f t, s.parse.1 = .error f → f.offender? = some t → (∀ t ∈ w, Proper t) → Plain w →
        last = .error f ∧ n = w.length + 1 ∨
        ∃ u x, w = u ++ x ∧ Ahead last s.parse.2 x ∧ Next last x t ∧ n = u.length + 1 := by
  have hs := parse_shadows h
  revert hs
  cases hr : wholeScope (8 * w.length + 4) (⟨Replay.ofItems (tape w last), []⟩ : Lookahead Replay) with
  | ok b r =>
    intro hs
    obtain ⟨s', hs, hshadow, u, hu⟩ := hs
    obtain ⟨hn, hne⟩ := hshadow.exists_pulled
    obtain ⟨t, q, hb, hk⟩ := wholeScope_ok hr
    rw [hb, List.append_cons, List.map_append, List.append_assoc] at hu
    rcases tape_append hu with ⟨x, rfl, -⟩ | ⟨rfl, hl, hq⟩
    · exact absurd hk (h.kind_ne t (by simp))
    obtain rfl : q = [] := by
      cases q with
      | nil => rfl
      | cons v q => cases (List.cons.inj hq).1
    have hrest : r.source.rest.length = 1 := congrArg List.length hq
    rw [hs]
    refine ⟨_, by omega, hn, fun _ _ => ⟨t, hl, by omega, hshadow.buffer.trans hb⟩, fun f t hf => by cases hf⟩
  | error f r =>
    intro hs
    obtain ⟨g, s', hs, hshadow, hend⟩ := hs
    obtain ⟨hn, hne⟩ := hshadow.exists_pulled
    rw [hs]
    refine ⟨_, by omega, hn, fun b hb => (by cases hb), fun f' t hf ht hw hx => ?_⟩
    cases hf
    rcases hend with ⟨rfl, -, u, hu⟩ | ⟨hl, -, hq⟩
    · have htidy := wholeScope_tidy (Nat.le_refl (8 * w.length + 4)) hx ⟨Replay.ofItems (tape w last), []⟩
        h.tape_ahead (clean_tape h hw) (Nat.zero_le 1)
      rw [hr] at htidy
      have hb : r.buffer = [t] := htidy t ht
      have hb' : s'.buffer = [t] := hshadow.buffer.trans hb
      rw [hb] at hu
      rcases tape_append hu with ⟨x, rfl, hq⟩ | ⟨rfl, hl, hq⟩
      · have hgives : Gives TokenStream.pull s'.source x last := (hq ▸ hshadow.follows : Follows last s'.source (tape x last)).gives
        have hkind : ∀ v ∈ t :: x, v.kind ≠ .endOfText := fun v hv => h.kind_ne v (List.mem_append_right u hv)
        have hrest : r.source.rest.length = x.length + 2 := by rw [hq, tape_length]
        refine .inr ⟨u, t :: x, rfl, .pending (hb' ▸ rfl) hkind hgives, .token (hkind t (List.mem_cons_self ..)), ?_⟩
        simp only [List.length_append, List.length_cons]
        omega
      · obtain rfl := hl
        have hrest : r.source.rest.length = 1 := congrArg List.length hq
        refine .inr ⟨w, [], (List.append_nil w).symm, .ended hb' nofun rfl h.final_kind, .final rfl h.final_kind, ?_⟩
        omega
    · have hrest : r.source.rest.length = 1 := congrArg List.length hq
      exact .inl ⟨hl, by omega⟩

/-! ## Reading again -/

/-- The sources that pulls and rewinds lead to. -/
inductive Handled (start : σ) : σ → Prop
  | start : Handled start start
  | pull {a : σ} : Handled start a → Handled start (TokenStream.pull a).2
  | rewind {a : σ} : Handled start a → Handled start (TokenStream.rewind a)

/-- Whenever it is rewound, the source gives `w` and then `last`. -/
def Replays (start : σ) (w : List Token) (last : Except Fault Token) : Prop :=
  ∀ a, Handled start a → Gives TokenStream.pull (TokenStream.rewind a) w last

theorem Handled.pulled {start a : σ} (h : Handled start a) (n : Nat) : Handled start (pulled n a) := by
  induction n with
  | zero => exact h
  | succ n ih => exact ih.pull

/-- A text is lexed again. -/
theorem Lexer.replays {l : Lexer} (h : Gives Lexer.pull l.rewind w last) : Replays l w last := by
  intro a ha
  have hsource : a.source = l.source := by
    induction ha with
    | start => rfl
    | @pull a _ ih =>
      show a.next.2.source = _
      unfold Lexer.next
      split <;> exact ih
    | rewind _ ih => exact ih
  show Gives Lexer.pull (Lexer.ofChars a.source) w last
  exact hsource ▸ h

theorem Counted.pulled_eq (n : Nat) (c : Counted σ) :
    pulled n c = { c with inner := pulled n c.inner, pulls := c.pulls + n } := by
  induction n with
  | zero => rfl
  | succ n ih =>
    rw [pulled, ih]
    rfl

/-- The lookahead after this many readings of a program, one after another. -/
def Lookahead.again (s : Lookahead σ) : Nat → Lookahead σ
  | 0 => s
  | n + 1 => (s.again n).parse.2

section

variable {s : Lookahead (Counted σ)}

theorem Counted.counts {n : Nat} {c : Counted σ} (h : c = pulled n (TokenStream.rewind s.source)) :
    c.inner = pulled n (TokenStream.rewind s.source.inner) ∧ c.pulls = s.source.pulls + n ∧
      c.rewinds = s.source.rewinds + 1 := by
  rw [h, pulled_eq]
  exact ⟨rfl, rfl, rfl⟩

/-- Readings handle the source that is counted. -/
theorem Replays.handled (h : Replays s.source.inner w last) (calls : Nat) :
    Handled s.source.inner (s.again calls).source.inner := by
  induction calls with
  | zero => exact .start
  | succ calls ih =>
    obtain ⟨n, -, hn, -⟩ := Lookahead.parse_demand (s := s.again calls) (Counted.gives_iff.mpr (h _ ih))
    rw [Lookahead.again, (Counted.counts hn).1]
    exact ih.rewind.pulled n

/-- Every reading of a source that can be read again rewinds it once, ends in the same result,
    and pulls the same number of items, none after the first that is final. -/
theorem Lookahead.parse_again (h : Replays s.source.inner w last) : ∃ result p, p ≤ w.length + 1 ∧ ∀ calls,
    (s.again calls).parse.1 = result ∧
    (s.again (calls + 1)).source.rewinds = (s.again calls).source.rewinds + 1 ∧
    (s.again (calls + 1)).source.pulls = (s.again calls).source.pulls + p ∧
    (∀ b, result = .ok b → ∃ e, last = .ok e ∧ p = w.length + 1 ∧ (s.again (calls + 1)).buffer = [e]) ∧
    ∀ f t, result = .error f → f.offender? = some t → (∀ t ∈ w, Proper t) → Plain w →
      last = .error f ∧ p = w.length + 1 ∨
      ∃ u x, w = u ++ x ∧ Ahead last (s.again (calls + 1)) x ∧ Next last x t ∧ p = u.length + 1 := by
  have gives (calls : Nat) : Gives TokenStream.pull (TokenStream.rewind (s.again calls).source) w last :=
    Counted.gives_iff.mpr (h _ (h.handled calls))
  have given : Gives TokenStream.pull (TokenStream.rewind s.source) w last := gives 0
  obtain ⟨p, hp, hfirst, -⟩ := parse_demand given
  refine ⟨s.parse.1, p, hp, fun calls => ?_⟩
  obtain ⟨n, -, hn, ok, error⟩ := parse_demand (gives calls)
  obtain ⟨hresult, k, -, hk, hk'⟩ := parse_congr s (s.again calls) given (gives calls)
  have hpn : n = p := by
    have first := (Counted.counts hfirst).2.1
    have first' := (Counted.counts hk).2.1
    have now := (Counted.counts hn).2.1
    have now' := (Counted.counts hk').2.1
    omega
  subst hpn
  rw [hresult]
  exact ⟨rfl, (Counted.counts hn).2.2, (Counted.counts hn).2.1, ok, error⟩

/-- A parenthesis that closes nothing is the second token to be pulled, and the last. -/
theorem parse_again_unmatched : ∃ (s : Lookahead (Counted Lexer)) (w : List Token),
    Replays s.source.inner w (.ok Token.endOfText) ∧ w.length = 3 ∧ (∀ t ∈ w, Proper t) ∧ Plain w ∧ ∀ calls,
      (s.again calls).parse.1 = .error (.noStatement ⟨.closeParen, ")"⟩) ∧
      ∃ u x, w = u ++ x ∧ Next (.ok Token.endOfText) x ⟨.closeParen, ")"⟩ ∧
        (s.again (calls + 1)).source.pulls = (s.again calls).source.pulls + (u.length + 1) := by
  let s := Lookahead.ofSource (Counted.ofSource (Lexer.ofText "\n)y"))
  let w : List Token := [⟨.newline, "\n"⟩, ⟨.closeParen, ")"⟩, ⟨.name, "y"⟩]
  have hs : Replays s.source.inner w (.ok Token.endOfText) :=
    Lexer.replays (.token rfl nofun (.token rfl nofun (.token rfl nofun (.final rfl rfl))))
  have hw : ∀ t ∈ w, Proper t :=
    List.forall_mem_cons.mpr ⟨nofun, List.forall_mem_cons.mpr ⟨nofun, List.forall_mem_singleton.mpr fun _ => by decide⟩⟩
  have hplain : Plain w := .of_not_starts rfl fun _ => .of_not_starts rfl nofun
  obtain ⟨result, p, -, h⟩ := Lookahead.parse_again hs
  have hresult : result = .error (.noStatement ⟨.closeParen, ")"⟩) := (h 0).1.symm.trans (by rfl)
  refine ⟨s, w, hs, rfl, hw, hplain, fun calls => ?_⟩
  obtain ⟨hcall, -, hpulls, -, herror⟩ := h calls
  refine ⟨hcall.trans hresult, ?_⟩
  rcases herror _ _ hresult rfl hw hplain with ⟨hl, -⟩ | ⟨u, x, hx, -, hnext, hp⟩
  · cases hl
  · exact ⟨u, x, hx, hnext, hp ▸ hpulls⟩

end

end ScriptLang
