/-
  ScriptLang.Proofs.Grammar.Foresight — how the tokens end makes no difference before their end.

  Readers of expressions look no further than the next token. So a reading that leaves some of
  the tokens ahead comes to no end and no fault of its source, and goes the same way where
  other items come after those tokens.
  - `foresees`: the steps at the next token do, and so does all that is read by them.
  - `Foresees.reads`: what such a reading gives before a token it gives whatever comes after.
-/

import ScriptLang.Proofs.Grammar.Blame
import ScriptLang.Proofs.Stream.Tape

namespace ScriptLang

open Grammar Lookahead

variable {σ α β : Type} [TokenStream σ] {last : Except Fault Token}

/-- These tokens are ahead, and end tokens after them. -/
def Holds (r : Lookahead Replay) (v : List Token) : Prop := ∃ w, r.buffer ++ w = v ∧ r.source.rest = w.map .ok

/-- Only end tokens are ahead. -/
def Spent (r : Lookahead Replay) : Prop := (∀ t ∈ r.buffer, t.kind = .endOfText) ∧ r.source.rest = []

/-- If the second reading leaves some of the tokens ahead, the first one ends in the same way,
    however its source goes on after them. -/
structure Foresees (last : Except Fault Token) {α : Type} (m : Reading σ α) (m' : Reading Replay α) : Prop where
  some : ∀ r v, v ≠ [] → Holds r v → match m' r with
    | .ok a r' => Spent r' ∨ ∃ v', v' ≠ [] ∧ Holds r' v' ∧ ∀ s, Ahead last s v → ∃ s', m s = .ok a s' ∧ Ahead last s' v'
    | .error _ _ => True
  none : ∀ r, Spent r → match m' r with
    | .ok _ r' => Spent r'
    | .error _ _ => True

/-! ## Sources of tokens -/

theorem Holds.ahead {r : Lookahead Replay} {v : List Token} (h : Holds r v) (hv : ∀ t ∈ v, t.kind ≠ .endOfText) :
    Ahead (.ok Token.endOfText) r v := by
  obtain ⟨w, rfl, hrest⟩ := h
  exact .pending rfl hv (Replay.gives_tokens hrest fun t ht => hv t (List.mem_append_right _ ht))

theorem Spent.of_holds {r : Lookahead Replay} (h : Holds r []) : Spent r := by
  obtain ⟨w, hw, hrest⟩ := h
  obtain ⟨hb, rfl⟩ := List.append_eq_nil_iff.mp hw
  exact ⟨by rw [hb]; exact nofun, hrest⟩

theorem Spent.not_ahead {r : Lookahead Replay} {e t : Token} {v : List Token} (h : Spent r) :
    ¬ Ahead (.ok e) r (t :: v) := by
  rcases r with ⟨q, buffer⟩
  intro ha
  cases buffer with
  | cons u buffer =>
    have hu : u.kind = .endOfText := h.1 u (List.mem_cons_self ..)
    cases ha with
    | pending hv hk _ => exact hk u (hv ▸ List.mem_cons_self ..) hu
    | ended hb hk => exact hk u ((List.cons.inj (hb.trans (List.cons_append ..))).1 ▸ List.mem_cons_self ..) hu
  | nil =>
    cases ha with
    | ended hb => simp at hb
    | pending hv hk hg =>
      cases hv
      cases hg with
      | token hp hne _ =>
        rw [Replay.pull_nil h.2] at hp
        cases hp
        exact hne rfl

/-! ## Steps -/

theorem Holds.take {r : Lookahead Replay} {t : Token} {v : List Token} (h : Holds r (t :: v)) :
    ∃ r', Lookahead.take r = .ok t r' ∧ Holds r' v := by
  rcases r with ⟨q, buffer⟩
  obtain ⟨w, hv, hrest⟩ := h
  cases buffer with
  | cons u buffer =>
    obtain ⟨rfl, rfl⟩ := List.cons.inj hv
    exact ⟨_, rfl, w, rfl, hrest⟩
  | nil =>
    cases hv
    exact ⟨_, pull_ok (Replay.pull_cons hrest), v, rfl, rfl⟩

theorem Holds.peek {r : Lookahead Replay} {t : Token} {v : List Token} (h : Holds r (t :: v)) :
    ∃ r', Lookahead.peek 0 r = .ok t r' ∧ Holds r' (t :: v) := by
  rcases r with ⟨q, buffer⟩
  cases buffer with
  | cons u buffer =>
    obtain ⟨w, hv, hrest⟩ := h
    obtain rfl : u = t := (List.cons.inj hv).1
    exact ⟨_, peek_of_lt (Nat.zero_lt_succ _), w, hv, hrest⟩
  | nil =>
    obtain ⟨w, hv, hrest⟩ := h
    cases hv
    exact ⟨_, peek_nil (Replay.pull_cons hrest), v, rfl, rfl⟩

theorem Spent.take {r : Lookahead Replay} (h : Spent r) : ∃ t r', Lookahead.take r = .ok t r' ∧ Spent r' := by
  rcases r with ⟨q, buffer⟩
  cases buffer with
  | cons u buffer => exact ⟨u, _, rfl, fun t ht => h.1 t (List.mem_cons_of_mem _ ht), h.2⟩
  | nil => exact ⟨_, _, pull_ok (Replay.pull_nil h.2), h⟩

theorem Spent.peek {r : Lookahead Replay} (h : Spent r) : ∃ t r', Lookahead.peek 0 r = .ok t r' ∧ Spent r' := by
  rcases r with ⟨q, buffer⟩
  cases buffer with
  | cons u buffer => exact ⟨u, _, peek_of_lt (Nat.zero_lt_succ _), h⟩
  | nil =>
    exact ⟨_, _, peek_nil (Replay.pull_nil h.2), List.forall_mem_singleton.mpr rfl, h.2⟩

namespace Foresees

theorem pure (a : α) : Foresees (σ := σ) last (pure a) (pure a) where
  some _ v hv hr := .inr ⟨v, hv, hr, fun s hs => ⟨s, rfl, hs⟩⟩
  none _ hr := hr

theorem throw {m : Reading σ α} {f : Fault} : Foresees last m (throw f) where
  some _ _ _ _ := trivial
  none _ _ := trivial

theorem bind {m : Reading σ α} {m' : Reading Replay α} {g : α → Reading σ β} {g' : α → Reading Replay β}
    (h : Foresees last m m') (hg : ∀ a, Foresees last (g a) (g' a)) : Foresees last (m >>= g) (m' >>= g') where
  some r v hv hr := by
    have hm := h.some r v hv hr
    revert hm
    simp only [Bind.bind, EStateM.bind]
    cases m' r with
    | error f r₁ => exact fun _ => trivial
    | ok a r₁ =>
      intro hm
      rcases hm with hspent | ⟨u, hu, hr₁, hm⟩
      · have hn := (hg a).none r₁ hspent
        revert hn
        show _ → (match g' a r₁ with | .ok _ _ => _ | .error _ _ => _)
        cases g' a r₁ with
        | error f r₂ => exact fun _ => trivial
        | ok b r₂ => exact .inl
      · have hs := (hg a).some r₁ u hu hr₁
        revert hs
        show _ → (match g' a r₁ with | .ok _ _ => _ | .error _ _ => _)
        cases g' a r₁ with
        | error f r₂ => exact fun _ => trivial
        | ok b r₂ =>
          refine Or.imp_right fun ⟨u', hu', hr₂, hs⟩ => ⟨u', hu', hr₂, fun s hs₀ => ?_⟩
          obtain ⟨s₁, hm₁, hs₁⟩ := hm s hs₀
          rw [hm₁]
          exact hs s₁ hs₁
  none r hr := by
    have hm := h.none r hr
    revert hm
    simp only [Bind.bind, EStateM.bind]
    cases m' r with
    | error f r₁ => exact fun _ => trivial
    | ok a r₁ => exact (hg a).none r₁

theorem next : Foresees (σ := σ) last (peek 0) (peek 0) where
  some r v hv hr := by
    obtain ⟨t, v, rfl⟩ := List.exists_cons_of_ne_nil hv
    obtain ⟨r', hp, hr'⟩ := hr.peek
    rw [hp]
    exact .inr ⟨_, hv, hr', fun s hs => hs.peek⟩
  none r hr := by
    obtain ⟨t, r', hp, hr'⟩ := hr.peek
    rw [hp]
    exact hr'

theorem take : Foresees (σ := σ) last take take where
  some r v hv hr := by
    obtain ⟨t, v, rfl⟩ := List.exists_cons_of_ne_nil hv
    obtain ⟨r', hp, hr'⟩ := hr.take
    rw [hp]
    cases v with
    | nil => exact .inl (.of_holds hr')
    | cons u v => exact .inr ⟨_, List.cons_ne_nil u v, hr', fun s hs => hs.take⟩
  none r hr := by
    obtain ⟨t, r', hp, hr'⟩ := hr.take
    rw [hp]
    exact hr'

end Foresees

/-- What looks no further than the next token meets no end before it is there. -/
theorem foresees : Near (σ := σ) (τ := Replay) (Foresees last) where
  pure := .pure
  bind := .bind
  shallow _ := .throw
  unsupported _ := .throw
  next := .next
  take := .take
  fail _ := .bind .next fun _ => .throw
  name? := by
    refine .bind (.bind .next fun t => .pure t.kind) fun kind => ?_
    split
    · refine .bind .take fun t => ?_
      split
      · exact .pure _
      · exact .throw
    · exact .pure _
  literal? := by
    refine .bind .next fun t => ?_
    cases literalOf t with
    | error f => exact .throw
    | ok v =>
      cases v with
      | none => exact .pure _
      | some v => exact .bind .take fun _ => .pure _

/-- What is read up to a token, where only end tokens come after the tokens, is read whatever comes after them. -/
theorem Foresees.reads {m : Reading σ α} {m' : Reading Replay α} (h : Foresees last m m') {s : Lookahead σ}
    {x z : List Token} {t : Token} {a : α} (hs : Ahead last s x) (hx : x ≠ [])
    (hm : ∀ r, Ahead (.ok Token.endOfText) r x → ∃ r', m' r = .ok a r' ∧ Ahead (.ok Token.endOfText) r' (t :: z)) :
    ∃ s', m s = .ok a s' ∧ Ahead last s' (t :: z) := by
  obtain ⟨r, hr⟩ : ∃ r, Holds r x := ⟨⟨.ofItems (x.map .ok), []⟩, x, rfl, rfl⟩
  obtain ⟨r', hr', ha⟩ := hm r (hr.ahead hs.kind_ne)
  have hsome := h.some r x hx hr
  rw [hr'] at hsome
  rcases hsome with hspent | ⟨v, -, hholds, hread⟩
  · exact absurd ha hspent.not_ahead
  · obtain ⟨s', hm, hs'⟩ := hread s hs
    obtain rfl : v = t :: z := (hholds.ahead hs'.kind_ne).unique ha
    exact ⟨s', hm, hs'⟩

end ScriptLang
