/-
  ScriptLang.Proofs.Grammar.Peeking — looking ahead before reading changes nothing that is read.

  Looking ahead moves items from the source into the buffer. `Filled s s'`: the lookahead `s'`
  is `s` with some more items buffered. What a reader gives from `s` it gives from `s'` too, at
  the same depth or a greater one, and what is left is the same but for the buffer.
  - `unswayed`: so do the steps, and with them all readers.
  - `Ahead.of_filled`: what is ahead was ahead before some of it was buffered.
  - `expression?_derives`: what is read as an expression at any depth derives.
-/

import Mathlib.Logic.Relation
import ScriptLang.Proofs.Grammar.Parametric
import ScriptLang.Proofs.Grammar.Soundness

namespace ScriptLang

open Grammar
open Token (Kind)

variable {σ α β : Type} [TokenStream σ] {last : Except Fault Token} {s s' : Lookahead σ}

/-! ## Filled buffers -/

/-- One item more is buffered. -/
inductive Buffers (s : Lookahead σ) : Lookahead σ → Prop
  | pull {t : Token} {source : σ} : TokenStream.pull s.source = (.ok t, source) → Buffers s ⟨source, s.buffer ++ [t]⟩

/-- Some items more are buffered. -/
abbrev Filled (s s' : Lookahead σ) : Prop := Relation.ReflTransGen Buffers s s'

theorem fill_filled {n : Nat} {u : Unit} (h : Lookahead.fill n s = .ok u s') : Filled s s' := by
  induction n generalizing s with
  | zero =>
    cases h
    exact .refl
  | succ n ih =>
    rw [Lookahead.fill_succ] at h
    cases hp : TokenStream.pull s.source with
    | mk result source =>
      cases result with
      | error f => rw [Lookahead.pull_error hp] at h; cases h
      | ok t =>
        rw [Lookahead.pull_ok hp] at h
        exact .head (.pull hp) (ih h)

/-- What is ahead was ahead before an item of it was buffered. -/
theorem Ahead.of_buffers {x : List Token} (h : Buffers s s') (hx : Ahead last s' x) : Ahead last s x := by
  cases h with
  | @pull t source hp =>
    cases hx with
    | @pending w hw hk hg =>
      have hw : s.buffer ++ t :: w = x := by rw [← hw, List.append_assoc, List.singleton_append]
      exact .pending hw hk (.token hp (hk t (by rw [← hw]; simp)) hg)
    | @ended e hb hk hl he =>
      obtain ⟨hx, hte⟩ := List.append_inj' hb rfl
      obtain ⟨rfl, -⟩ := List.cons.inj hte
      subst hl
      exact .pending ((List.append_nil _).trans hx) hk (.final hp (beq_iff_eq.mpr he))

theorem Ahead.of_filled {x : List Token} (h : Filled s s') (hx : Ahead last s' x) : Ahead last s x := by
  induction h using Relation.ReflTransGen.head_induction_on with
  | refl => exact hx
  | head hb _ ih => exact .of_buffers hb ih

/-! ## Looking ahead -/

/-- A reading that takes nothing, and may buffer items. -/
def Looks (m : Reading σ α) : Prop := ∀ s a s', m s = .ok a s' → Filled s s'

namespace Looks

theorem pure {a : α} : Looks (σ := σ) (pure a) := fun _ _ _ h => by
  cases h
  exact .refl

theorem throw {f : Fault} : Looks (throw f : Reading σ α) := fun _ _ _ h => by cases h

theorem bind {m : Reading σ α} {g : α → Reading σ β} (h : Looks m) (hg : ∀ a, Looks (g a)) : Looks (m >>= g) := by
  intro s b s' hm
  simp only [Bind.bind, EStateM.bind] at hm
  cases hm' : m s with
  | error f r => rw [hm'] at hm; cases hm
  | ok a r =>
    rw [hm'] at hm
    exact (h s a r hm').trans (hg a r b s' hm)

theorem peek (n : Nat) : Looks (σ := σ) (Lookahead.peek n) := by
  intro s t s' h
  rw [Lookahead.peek_eq] at h
  cases hf : Lookahead.fill (n + 1 - s.buffer.length) s with
  | error f r => rw [hf] at h; cases h
  | ok u r =>
    rw [hf] at h
    cases h
    exact fill_filled hf

theorem peekKind (n : Nat) : Looks (σ := σ) (Lookahead.peekKind n) := .bind (.peek n) fun _ => .pure

end Looks

/-! ## Readings -/

/-- What the second reading gives, the first one gives after looking ahead. -/
def Unswayed (m m' : Reading σ α) : Prop :=
  ∀ s s' a r, Filled s s' → m' s = .ok a r → ∃ r', m s' = .ok a r' ∧ Filled r r'

namespace Unswayed

/-- It is enough that one item more makes no difference. -/
theorem of_buffers {m : Reading σ α} (h : ∀ s s' a r, Buffers s s' → m s = .ok a r → ∃ r', m s' = .ok a r' ∧ Filled r r') :
    Unswayed m m := by
  intro s s' a r hs hm
  induction hs using Relation.ReflTransGen.head_induction_on generalizing r with
  | refl => exact ⟨r, hm, .refl⟩
  | head hb _ ih =>
    obtain ⟨r₁, hm, hr₁⟩ := h _ _ a r hb hm
    obtain ⟨r', hm, hr'⟩ := ih _ hm
    exact ⟨r', hm, hr₁.trans hr'⟩

theorem bind {m m' : Reading σ α} {g g' : α → Reading σ β} (h : Unswayed m m') (hg : ∀ a, Unswayed (g a) (g' a)) :
    Unswayed (m >>= g) (m' >>= g') := by
  intro s s' b r hs hm
  simp only [Bind.bind, EStateM.bind] at hm ⊢
  cases hm' : m' s with
  | error f r₁ => rw [hm'] at hm; cases hm
  | ok a r₁ =>
    rw [hm'] at hm
    obtain ⟨r₂, hm₂, hr₂⟩ := h s s' a r₁ hs hm'
    rw [hm₂]
    exact hg a r₁ r₂ b r hr₂ hm

theorem peek (n : Nat) : Unswayed (σ := σ) (Lookahead.peek n) (Lookahead.peek n) := by
  refine of_buffers fun s s' t r hb hm => ?_
  cases hb with
  | @pull u source hp =>
    rw [Lookahead.peek_eq] at hm ⊢
    rw [List.length_append, List.length_singleton]
    cases hn : n + 1 - s.buffer.length with
    | zero =>
      rw [hn] at hm
      cases hm
      have hz : n + 1 - (s.buffer.length + 1) = 0 := by omega
      have hlt : n < s.buffer.length := by omega
      rw [hz]
      refine ⟨_, ?_, .single (.pull hp)⟩
      show EStateM.Result.ok ((s.buffer ++ [u]).getD n Token.endOfText) _ = _
      rw [List.getD_eq_getElem?_getD, List.getElem?_append_left hlt, ← List.getD_eq_getElem?_getD]
    | succ k =>
      have hk : n + 1 - (s.buffer.length + 1) = k := by omega
      rw [hn, Lookahead.fill_succ, Lookahead.pull_ok hp] at hm
      rw [hk]
      exact ⟨r, hm, .refl⟩

theorem take : Unswayed (σ := σ) Lookahead.take Lookahead.take := by
  refine of_buffers fun s s' t r hb hm => ?_
  cases hb with
  | @pull u source hp =>
    rcases s with ⟨start, buffer⟩
    cases buffer with
    | nil =>
      rw [Lookahead.take_nil, Lookahead.pull_ok hp] at hm
      cases hm
      exact ⟨_, rfl, .refl⟩
    | cons v buffer =>
      cases hm
      exact ⟨_, rfl, .single (.pull hp)⟩

end Unswayed

/-- What looks ahead, takes and gives up is not swayed by what is buffered. -/
theorem unswayed : Uniform (σ := σ) (τ := σ) Unswayed where
  pure a s s' b r hs hm := by
    cases hm
    exact ⟨s', rfl, hs⟩
  bind := .bind
  shallow _ _ _ _ _ _ hm := by cases hm
  throw _ _ _ _ _ _ hm := by cases hm
  peek := .peek
  take := .take

/-- What is read as an expression, at whatever depth, derives. -/
theorem expression?_derives {n : Nat} {x : List Token} {found : Option Expr} (hs : Ahead last s x)
    (h : expression? n s = .ok found s') : ∃ y, Ahead last s' y ∧ Maybe Expression x found y := by
  obtain ⟨r, hr, hfilled⟩ :=
    (unswayed.near.readers (Nat.le_max_left n (8 * x.length + 2))).expression s s found s' .refl h
  have hreaders : ExpressionReaders σ last (max n (8 * x.length + 2)) := expressionReaders _
  have hread := hreaders.expression (Nat.le_max_right ..) s hs
  rw [hr] at hread
  obtain ⟨y, hy, hfound⟩ := hread
  exact ⟨y, .of_filled hfilled hy, hfound⟩

end ScriptLang
