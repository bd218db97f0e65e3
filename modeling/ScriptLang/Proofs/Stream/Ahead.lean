/-
  ScriptLang.Proofs.Stream.Ahead — what a lookahead still has to give, and readings judged by it.

  `Ahead last s x`: the tokens `x` and then the final item `last` are what `s` has not handed
  out yet, whether pulled or not. Readings look at nothing else: `Reads last m x Q E` says
  that `m`, with `x` ahead, either gives a value and leaves tokens that meet `Q`, or fails
  with a fault and leaves tokens that meet `E`; the fault that ends the source is always
  allowed.
  - `Ahead.unique`: at most one list of tokens is ahead.
  - `Reads.bind` / `Reads.seq` / `Reads.mono`: readings in sequence, and weaker ends.
  - `Reads.exists_ok`: a reading that cannot fail gives a value.
  - `Ahead.peek` / `Ahead.take`: what is ahead is looked at and taken without a fault.
  - `Reads.peek` / `Reads.take`: looking takes nothing; taking takes the first token.
  - `Reads.takeIf` / `Reads.expect` / `Reads.require`: the combined steps of the grammar.
-/

import ScriptLang.Stream.Lookahead

namespace ScriptLang

variable {σ α β : Type} [TokenStream σ] {last : Except Fault Token}

/-- `t` is next: the first of the tokens ahead, or the end token where there is none. -/
inductive Next (last : Except Fault Token) : List Token → Token → Prop
  | token {t : Token} {x : List Token} : t.kind ≠ .endOfText → Next last (t :: x) t
  | final {t : Token} : last = .ok t → t.kind = .endOfText → Next last [] t

theorem Next.cons {x : List Token} {t : Token} (h : Next last x t) (hk : t.kind ≠ .endOfText) : ∃ y, x = t :: y := by
  cases h with
  | token => exact ⟨_, rfl⟩
  | final _ he => exact absurd he hk

theorem Next.nil_of_kind {x : List Token} {t : Token} (h : Next last x t) (hk : t.kind = .endOfText) : x = [] := by
  cases h with
  | token hn => exact absurd hk hn
  | final => rfl

theorem Next.head {x : List Token} {t u : Token} (h : Next last (t :: x) u) : u = t := by
  cases h
  rfl

theorem Next.unique {x : List Token} {t u : Token} (h : Next last x t) (h' : Next last x u) : t = u := by
  cases h with
  | token => exact h'.head.symm
  | final hl _ =>
    cases h' with
    | final hl' _ => exact Except.ok.inj (hl.symm.trans hl')

/-- The tokens that a lookahead has not handed out, before the final item of its source. -/
inductive Ahead (last : Except Fault Token) (s : Lookahead σ) (x : List Token) : Prop
  | pending {w : List Token} : s.buffer ++ w = x → (∀ t ∈ x, t.kind ≠ .endOfText) →
      Gives TokenStream.pull s.source w last → Ahead last s x
  | ended {e : Token} : s.buffer = x ++ [e] → (∀ t ∈ x, t.kind ≠ .endOfText) → last = .ok e →
      e.kind = .endOfText → Ahead last s x

/-! ## Sources -/

section Gives

variable {σ : Type} {pull : σ → Except Fault Token × σ} {s : σ}

theorem Gives.kind_ne {w : List Token} {r : Except Fault Token} (h : Gives pull s w r) :
    ∀ t ∈ w, t.kind ≠ .endOfText := by
  induction h with
  | final => intro t ht; cases ht
  | token _ hk _ ih => exact List.forall_mem_cons.mpr ⟨hk, ih⟩

theorem Gives.final_kind {w : List Token} {e : Token} (h : Gives pull s w (.ok e)) : e.kind = .endOfText := by
  generalize hr : Except.ok e = r at h
  induction h with
  | final _ hf => subst hr; exact beq_iff_eq.mp hf
  | token _ _ _ ih => exact ih hr

theorem Gives.unique {w w' : List Token} {r r' : Except Fault Token} (h : Gives pull s w r)
    (h' : Gives pull s w' r') : w = w' ∧ r = r' := by
  induction h generalizing w' with
  | final hp hf =>
    cases h' with
    | final hp' _ => exact ⟨rfl, (Prod.mk.inj (hp.symm.trans hp')).1⟩
    | token hp' hk _ =>
      obtain ⟨rfl, -⟩ := Prod.mk.inj (hp.symm.trans hp')
      exact absurd (beq_iff_eq.mp hf) hk
  | token hp hk _ ih =>
    cases h' with
    | final hp' hf =>
      obtain ⟨rfl, -⟩ := Prod.mk.inj (hp.symm.trans hp')
      exact absurd (beq_iff_eq.mp hf) hk
    | token hp' _ h' =>
      obtain ⟨ht, rfl⟩ := Prod.mk.inj (hp.symm.trans hp')
      obtain ⟨rfl, rfl⟩ := ih h'
      exact ⟨by rw [Except.ok.inj ht], rfl⟩

end Gives

/-! ## What is ahead -/

namespace Ahead

variable {s : Lookahead σ} {x y : List Token}

omit [TokenStream σ] in
theorem not_mem_of_ended {e : Token} (hb : s.buffer = x ++ [e]) (he : e.kind = .endOfText) {w : List Token}
    (hy : ∀ t ∈ s.buffer ++ w, t.kind ≠ .endOfText) : False :=
  hy e (List.mem_append_left _ (hb ▸ List.mem_append_right _ (List.mem_singleton.mpr rfl))) he

theorem unique (h : Ahead last s x) (h' : Ahead last s y) : x = y := by
  cases h with
  | pending hx hk hg =>
    cases h' with
    | pending hy _ hg' => rw [← hx, ← hy, (hg.unique hg').1]
    | ended hb _ _ he => exact (not_mem_of_ended hb he (hx ▸ hk)).elim
  | ended hb _ _ he =>
    cases h' with
    | pending hy hk _ => exact (not_mem_of_ended hb he (hy ▸ hk)).elim
    | ended hb' _ _ _ => exact (List.append_inj' (hb.symm.trans hb') rfl).1

theorem kind_ne (h : Ahead last s x) : ∀ t ∈ x, t.kind ≠ .endOfText := by
  cases h with
  | pending _ hk _ => exact hk
  | ended _ hk _ _ => exact hk

theorem buffer_length_le (h : Ahead last s x) : s.buffer.length ≤ x.length + 1 := by
  cases h with
  | pending hx => rw [← hx, List.length_append]; omega
  | ended hb => simp [hb]

/-- A buffered token stands where it stands in what is ahead. -/
theorem next {p : List Token} (h : Ahead last s (p ++ x)) (hp : p.length < s.buffer.length) :
    ∃ t, s.buffer[p.length]? = some t ∧ Next last x t := by
  cases h with
  | @pending w hx hk hg =>
    have hi : (s.buffer ++ w)[p.length]? = s.buffer[p.length]? := List.getElem?_append_left hp
    rw [hx, List.getElem?_append_right (Nat.le_refl _), Nat.sub_self] at hi
    cases x with
    | nil =>
      have := congrArg List.length hx
      simp only [List.append_nil, List.length_append] at this
      omega
    | cons t x => exact ⟨t, hi.symm, .token (hk t (by simp))⟩
  | @ended e hb hk hl he =>
    rw [hb]
    cases x with
    | nil => exact ⟨e, by simp, .final hl he⟩
    | cons t x => exact ⟨t, by simp, .token (hk t (by simp))⟩

end Ahead

/-! ## Readings -/

/-- With `x` ahead, the reading ends in a value and tokens that meet `Q`, or fails in a fault
    and tokens that meet `E`, unless it fails with the fault of the source. -/
def Reads (last : Except Fault Token) (m : Reading σ α) (x : List Token) (Q : α → List Token → Prop)
    (E : Fault → List Token → Prop) : Prop :=
  ∀ s, Ahead last s x → match m s with
    | .ok a s' => ∃ y, Ahead last s' y ∧ Q a y
    | .error f s' => last = .error f ∨ ∃ y, Ahead last s' y ∧ E f y

namespace Reads

variable {m : Reading σ α} {x : List Token} {Q : α → List Token → Prop} {E : Fault → List Token → Prop}

theorem pure {a : α} (h : Q a x) : Reads last (σ := σ) (pure a) x Q E := fun _ hs => ⟨x, hs, h⟩

theorem throw {f : Fault} (h : E f x) : Reads last (σ := σ) (throw f : Reading σ α) x Q E := fun _ hs => .inr ⟨x, hs, h⟩

theorem bind {g : α → Reading σ β} {Q : β → List Token → Prop} (h : Reads last m x (fun a y => Reads last (g a) y Q E) E) :
    Reads last (m >>= g) x Q E := by
  intro s hs
  have hm := h s hs
  revert hm
  simp only [Bind.bind, EStateM.bind]
  cases m s with
  | error f s' => exact fun hm => hm
  | ok a s' =>
    intro hm
    rcases hm with ⟨y, hy, hg⟩
    exact hg s' hy

theorem mono {Q' : α → List Token → Prop} {E' : Fault → List Token → Prop} (h : Reads last m x Q E)
    (hQ : ∀ a y, Q a y → Q' a y) (hE : ∀ f y, E f y → E' f y) : Reads last m x Q' E' := by
  intro s hs
  have hm := h s hs
  revert hm
  cases m s with
  | error f s' => exact fun hm => hm.imp_right fun ⟨y, hy, he⟩ => ⟨y, hy, hE f y he⟩
  | ok a s' => exact fun ⟨y, hy, hq⟩ => ⟨y, hy, hQ a y hq⟩

/-- A reading that has no fault to fail with, of a source that ends in none, gives a value. -/
theorem exists_ok {e : Token} {s : Lookahead σ} (h : Reads (.ok e) m x Q fun _ _ => False) (hs : Ahead (.ok e) s x) :
    ∃ a s' y, m s = .ok a s' ∧ Ahead (.ok e) s' y ∧ Q a y := by
  have hm := h s hs
  cases hr : m s with
  | ok a s' =>
    rw [hr] at hm
    obtain ⟨y, hy, hq⟩ := hm
    exact ⟨a, s', y, rfl, hy, hq⟩
  | error f s' =>
    rw [hr] at hm
    rcases hm with hl | ⟨_, _, hf⟩
    · cases hl
    · exact hf.elim

/-- One reading after another. -/
theorem seq {g : α → Reading σ β} {Q' : β → List Token → Prop} (h : Reads last m x Q E)
    (hg : ∀ a y, Q a y → Reads last (g a) y Q' E) : Reads last (m >>= g) x Q' E := .bind (h.mono hg fun _ _ => id)

end Reads

/-! ## Steps -/

open Lookahead
open Token (Kind)

/-- Filling moves tokens into the buffer; nothing that is ahead changes. -/
theorem fill_ahead {x : List Token} (n : Nat) (s : Lookahead σ) (h : Ahead last s x)
    (hn : s.buffer.length + n ≤ x.length + 1) : match fill n s with
      | .ok _ s' => Ahead last s' x ∧ s'.buffer.length = s.buffer.length + n
      | .error f _ => last = .error f := by
  induction n generalizing s with
  | zero => exact ⟨h, rfl⟩
  | succ n ih =>
    simp only [fill, Bind.bind, EStateM.bind, pull]
    cases h with
    | ended hb => rw [hb, List.length_append, List.length_singleton] at hn; omega
    | @pending w hx hk hg =>
      cases hg with
      | final hp hf =>
        rw [hp]
        cases last with
        | error f => exact rfl
        | ok e =>
          have hb : s.buffer = x := by simpa using hx
          have hn' : n = 0 := by rw [hb] at hn; omega
          subst hn'
          exact ⟨.ended (by simp [hb]) hk rfl (beq_iff_eq.mp hf), by simp⟩
      | @token _ s' t w _ hp hne hg =>
        rw [hp]
        have hs : Ahead last ⟨s', s.buffer ++ [t]⟩ x := .pending (by simpa using hx) hk hg
        have hl : (s.buffer ++ [t]).length = s.buffer.length + 1 := by simp
        have := ih ⟨s', s.buffer ++ [t]⟩ hs (by simp only [hl]; omega)
        simp only [hl] at this
        rw [Nat.add_right_comm] at this
        exact this

/-- A token ahead is taken, whatever comes after it. -/
theorem Ahead.take {s : Lookahead σ} {t : Token} {x : List Token} (h : Ahead last s (t :: x)) :
    ∃ s', Lookahead.take s = .ok t s' ∧ Ahead last s' x := by
  rcases s with ⟨source, buffer⟩
  cases buffer with
  | cons u buffer =>
    rw [take_cons]
    cases h with
    | pending hx hk hg =>
      obtain ⟨rfl, hx'⟩ : u = t ∧ buffer ++ _ = x := List.cons.inj hx
      exact ⟨_, rfl, .pending hx' (fun t ht => hk t (List.mem_cons_of_mem _ ht)) hg⟩
    | ended hb hk hl he =>
      obtain ⟨rfl, hb'⟩ : u = t ∧ buffer = x ++ [_] := List.cons.inj (hb.trans (List.cons_append ..))
      exact ⟨_, rfl, .ended hb' (fun t ht => hk t (List.mem_cons_of_mem _ ht)) hl he⟩
  | nil =>
    cases h with
    | ended hb => simp at hb
    | pending hx hk hg =>
      cases hx
      cases hg with
      | token hp _ hg =>
        rw [take_nil, pull, hp]
        exact ⟨_, rfl, .pending rfl (fun t ht => hk t (List.mem_cons_of_mem _ ht)) hg⟩

/-- A token ahead is looked at, whatever comes after it. -/
theorem Ahead.peek {s : Lookahead σ} {t : Token} {x : List Token} (h : Ahead last s (t :: x)) :
    ∃ s', Lookahead.peek 0 s = .ok t s' ∧ Ahead last s' (t :: x) := by
  rcases s with ⟨source, buffer⟩
  cases buffer with
  | cons u buffer =>
    obtain rfl : u = t := by
      cases h with
      | pending hx => exact (List.cons.inj hx).1
      | ended hb => exact (List.cons.inj (hb.trans (List.cons_append ..))).1
    exact ⟨_, peek_of_lt (Nat.zero_lt_succ _), h⟩
  | nil =>
    cases h with
    | ended hb => simp at hb
    | pending hx hk hg =>
      cases hx
      cases hg with
      | token hp _ hg => exact ⟨_, peek_nil hp, .pending rfl hk hg⟩

namespace Reads

variable {m : Reading σ α} {x p : List Token} {E : Fault → List Token → Prop} {k : Kind} {w : Expectation}

/-- The token after `p`, if nothing of `p` ends the text. -/
theorem peek {Q : Token → List Token → Prop} (h : ∀ t, Next last x t → Q t (p ++ x)) :
    Reads last (peek (σ := σ) p.length) (p ++ x) Q E := by
  intro s hs
  have hl := hs.buffer_length_le
  rw [List.length_append] at hl
  have hf := fill_ahead (p.length + 1 - s.buffer.length) s hs (by rw [List.length_append]; omega)
  have hget : (get : Reading σ (Lookahead σ)) = fun s => .ok s s := rfl
  simp only [Lookahead.peek, Bind.bind, EStateM.bind, hget]
  revert hf
  cases fill (p.length + 1 - s.buffer.length) s with
  | error f s' => exact fun hf => .inl hf
  | ok u s' =>
    intro hf
    rcases hf with ⟨hs', hb⟩
    obtain ⟨t, ht, hn⟩ := hs'.next (by omega)
    refine ⟨p ++ x, hs', ?_⟩
    rw [List.getD_eq_getElem?_getD, ht]
    exact h t hn

theorem peekKind {Q : Kind → List Token → Prop} (h : ∀ t, Next last x t → Q t.kind (p ++ x)) :
    Reads last (peekKind (σ := σ) p.length) (p ++ x) Q E :=
  .bind (.peek fun t ht => .pure (h t ht))

theorem next {Q : Token → List Token → Prop} (h : ∀ t, Next last x t → Q t x) :
    Reads last (Lookahead.peek (σ := σ) 0) x Q E := .peek (p := []) h

theorem nextKind {Q : Kind → List Token → Prop} (h : ∀ t, Next last x t → Q t.kind x) :
    Reads last (Lookahead.peekKind (σ := σ) 0) x Q E := .peekKind (p := []) h

theorem take {Q : Token → List Token → Prop} {t : Token} (h : Q t x) :
    Reads last (take (σ := σ)) (t :: x) Q E := by
  intro s hs
  obtain ⟨s', ht, hs'⟩ := hs.take
  rw [ht]
  exact ⟨x, hs', h⟩

theorem skip {Q : Unit → List Token → Prop} (h : Q () x) : Reads last (skip (σ := σ) p.length) (p ++ x) Q E := by
  induction p with
  | nil => exact .pure h
  | cons t p ih => exact .bind (.take ih)

/-- Skipping `p` and the token after it. -/
theorem skipPast {Q : Unit → List Token → Prop} {t : Token} (h : Q () x) :
    Reads last (Lookahead.skip (σ := σ) (p.length + 1)) (p ++ t :: x) Q E := by
  have hp : Reads last (Lookahead.skip (σ := σ) (p ++ [t]).length) (p ++ [t] ++ x) Q E := skip h
  rwa [List.length_append, List.append_assoc] at hp

theorem takeIf {Q : Bool → List Token → Prop} (hk : k ≠ .endOfText)
    (yes : ∀ t y, x = t :: y → t.kind = k → Q true y) (no : ∀ t, Next last x t → t.kind ≠ k → Q false x) :
    Reads last (takeIf (σ := σ) k) x Q E := by
  refine .bind (.nextKind ?_)
  intro t ht
  split
  · rename_i he
    obtain ⟨y, rfl⟩ := ht.cons (he ▸ hk)
    exact .bind (.take (.pure (yes t y rfl he)))
  · rename_i he
    exact .pure (no t ht he)

theorem fail {Q : α → List Token → Prop} (h : ∀ t, Next last x t → E (.unexpected w t) x) :
    Reads last (fail (σ := σ) (α := α) w) x Q E := .bind (.next fun t ht => .throw (h t ht))

theorem expect {Q : Token → List Token → Prop} (hk : k ≠ .endOfText) (yes : ∀ t y, x = t :: y → t.kind = k → Q t y)
    (no : ∀ t, Next last x t → t.kind ≠ k → E (.unexpected w t) x) : Reads last (expect (σ := σ) k w) x Q E := by
  refine .bind (.nextKind ?_)
  intro t ht
  split
  · rename_i he
    obtain ⟨y, rfl⟩ := ht.cons (he ▸ hk)
    exact .take (yes t y rfl he)
  · rename_i he
    exact .fail fun u hu => hu.unique ht ▸ no t ht he

theorem require {Q : α → List Token → Prop} {o : Option α} (yes : ∀ a, o = some a → Q a x)
    (no : o = none → ∀ t, Next last x t → E (.unexpected w t) x) : Reads last (require (σ := σ) w o) x Q E := by
  cases o with
  | none => exact .fail (no rfl)
  | some a => exact .pure (yes a rfl)

end Reads

end ScriptLang
