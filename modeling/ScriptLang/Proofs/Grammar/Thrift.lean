/-
  ScriptLang.Proofs.Grammar.Thrift — how far readers have looked when they find a fault.

  Readers look one token ahead, with three exceptions: a name at the start of a statement is
  looked past by one token; the search for an `else` buffers layout; and a name with an opening
  bracket after it is looked past as far as its brackets go. Where no statement starts like
  that, a fault about a token is found with that token as the only one in the buffer.
  - `spare`: readers that look one token ahead buffer no more than that.
  - `tidyReaders`: readers of statements, in front of tokens without such a start, leave buffers
    with layout only before their last token.
  - `wholeScope_tidy`: a whole program.
-/

import ScriptLang.Proofs.Grammar.Tracking
import ScriptLang.Proofs.Stream.Tape

namespace ScriptLang.Grammar

open Lookahead
open Token (Kind)

/-- No name that cannot be one. -/
def Proper (t : Token) : Prop := t.kind = .name → isProperName t.text = true

theorem Proper.endOfText : Proper Token.endOfText := nofun

/-- Names are proper, and no fault of the source is about a token. -/
structure Clean (r : Lookahead Replay) : Prop where
  buffer : ∀ t ∈ r.buffer, Proper t
  token : ∀ t, .ok t ∈ r.source.rest → Proper t
  fault : ∀ f, .error f ∈ r.source.rest → f.offender? = none

/-- A reading from a buffer that meets `B` ends with one that meets `C`, or in a fault, and the
    token that the fault is about, if any, is all that is buffered. -/
def Spends {α : Type} (B : List Token → Prop) (m : Reading Replay α) (C : α → List Token → Prop) : Prop :=
  ∀ r, Clean r → B r.buffer → match m r with
    | .ok a r' => Clean r' ∧ C a r'.buffer
    | .error f r' => ∀ t, f.offender? = some t → r'.buffer = [t]

/-- A buffer with one token at most. -/
def Small (b : List Token) : Prop := b.length ≤ 1

namespace Spends

variable {α β : Type} {B B' : List Token → Prop} {m : Reading Replay α} {C C' : α → List Token → Prop}

theorem mono (h : Spends B m C) (hB : ∀ b, B' b → B b) (hC : ∀ a b, C a b → C' a b) : Spends B' m C' := by
  intro r hr hb
  have hm := h r hr (hB _ hb)
  revert hm
  cases m r with
  | error f r' => exact id
  | ok a r' => exact fun hm => ⟨hm.1, hC a _ hm.2⟩

theorem pure {a : α} (h : ∀ b, B b → C a b) : Spends B (pure a) C := fun _ hr hb => ⟨hr, h _ hb⟩

theorem bind {g : α → Reading Replay β} {C' : β → List Token → Prop} (h : Spends B m C) (hg : ∀ a, Spends (C a) (g a) C') :
    Spends B (m >>= g) C' := by
  intro r hr hb
  have hm := h r hr hb
  revert hm
  simp only [Bind.bind, EStateM.bind]
  cases m r with
  | error f r' => exact id
  | ok a r' => exact fun hm => hg a r' hm.1 hm.2

/-- A fault that is about no token. -/
theorem throw {f : Fault} (h : f.offender? = none) : Spends (α := α) B (throw f) C := by
  intro r _ _ t ht
  rw [h] at ht
  cases ht

end Spends

/-! ## Steps -/

theorem pull_spec (r : Lookahead Replay) (hr : Clean r) : match Lookahead.pull r with
    | .ok t r' => Clean r' ∧ Proper t ∧ r'.buffer = r.buffer
    | .error f _ => f.offender? = none := by
  cases hq : r.source.rest with
  | nil =>
    have hp : TokenStream.pull r.source = (.ok Token.endOfText, r.source) := by
      show Replay.next r.source = _
      simp only [Replay.next, hq]
    rw [Lookahead.pull_ok hp]
    exact ⟨hr, .endOfText, rfl⟩
  | cons item rest =>
    have hsub : ∀ i ∈ rest, i ∈ r.source.rest := fun i hi => hq ▸ List.mem_cons_of_mem _ hi
    have hmem : item ∈ r.source.rest := hq ▸ List.mem_cons_self ..
    cases item with
    | error f =>
      rw [Lookahead.pull_error (Replay.pull_cons hq)]
      exact hr.fault f hmem
    | ok t =>
      rw [Lookahead.pull_ok (Replay.pull_cons hq)]
      exact ⟨⟨hr.buffer, fun u hu => hr.token u (hsub _ hu), fun f hf => hr.fault f (hsub _ hf)⟩, hr.token t hmem, rfl⟩

theorem fill_spec (n : Nat) (r : Lookahead Replay) (hr : Clean r) : match fill n r with
    | .ok _ r' => Clean r'
    | .error f _ => f.offender? = none := by
  induction n generalizing r with
  | zero => exact hr
  | succ n ih =>
    have hp := pull_spec r hr
    revert hp
    simp only [fill, Bind.bind, EStateM.bind]
    cases Lookahead.pull r with
    | error f r' => exact id
    | ok t r' =>
      intro hp
      obtain ⟨hr', ht, -⟩ := hp
      exact ih { r' with buffer := r'.buffer ++ [t] }
        ⟨List.forall_mem_append.mpr ⟨hr'.buffer, List.forall_mem_singleton.mpr ht⟩, hr'.token, hr'.fault⟩

theorem peek_spec (n : Nat) (r : Lookahead Replay) (hr : Clean r) : match peek n r with
    | .ok _ r' => Clean r'
    | .error f _ => f.offender? = none := by
  have hf := fill_spec (n + 1 - r.buffer.length) r hr
  rw [Lookahead.peek_eq]
  revert hf
  cases fill (n + 1 - r.buffer.length) r <;> exact id

theorem take_spec (r : Lookahead Replay) (hr : Clean r) : match take r with
    | .ok t r' => Clean r' ∧ Proper t ∧ (r.buffer = t :: r'.buffer ∨ r.buffer = [] ∧ r'.buffer = [])
    | .error f _ => f.offender? = none := by
  rcases r with ⟨q, b⟩
  cases b with
  | cons t b =>
    obtain ⟨ht, hb⟩ := List.forall_mem_cons.mp hr.buffer
    exact ⟨⟨hb, hr.token, hr.fault⟩, ht, .inl rfl⟩
  | nil =>
    have hp := pull_spec ⟨q, []⟩ hr
    rw [Lookahead.take_nil]
    revert hp
    cases Lookahead.pull (⟨q, []⟩ : Lookahead Replay) with
    | error f r' => exact id
    | ok t r' => exact fun hp => ⟨hp.1, hp.2.1, .inr ⟨rfl, hp.2.2⟩⟩

namespace Spends

variable {α β : Type} {B : List Token → Prop} {C : α → List Token → Prop}

theorem of_spec {m : Reading Replay α} (h : ∀ r, Clean r → B r.buffer → match m r with
    | .ok a r' => Clean r' ∧ C a r'.buffer
    | .error f _ => f.offender? = none) : Spends B m C := by
  intro r hr hb
  have hm := h r hr hb
  revert hm
  cases m r with
  | ok a r' => exact id
  | error f r' => exact fun hf t ht => by rw [hf] at ht; cases ht

theorem take {C : Token → List Token → Prop} (h : ∀ t b, Proper t → B (t :: b) → C t b)
    (h' : ∀ t, Proper t → B [] → C t []) : Spends B Lookahead.take C := by
  refine of_spec fun r hr hb => ?_
  have ht := take_spec r hr
  revert ht
  cases Lookahead.take r with
  | error f r' => exact id
  | ok t r' =>
    intro ht
    obtain ⟨hr', ht, hq | ⟨hq, hq'⟩⟩ := ht
    · exact ⟨hr', h t _ ht (hq ▸ hb)⟩
    · exact ⟨hr', hq' ▸ h' t ht (hq ▸ hb)⟩

theorem peek {n : Nat} {C : Token → List Token → Prop}
    (h : ∀ t b q, B b → q.length = n + 1 - b.length → (b ++ q)[n]? = some t → C t (b ++ q)) : Spends B (Lookahead.peek n) C := by
  refine of_spec fun r hr hb => ?_
  have hr' := peek_spec n r hr
  revert hr'
  cases hp : Lookahead.peek n r with
  | error f r' => exact id
  | ok t r' =>
    intro hr'
    obtain ⟨ht, q, hq, hn⟩ := Lookahead.peek_buffer hp
    rw [hq] at ht
    exact ⟨hr', hq ▸ h t _ q hb hn ht⟩

/-- The next token is the first that is buffered, or the only one. -/
theorem next {C : Token → List Token → Prop} (h : ∀ t b, B (t :: b) → C t (t :: b)) (h' : ∀ t, B [] → C t [t]) :
    Spends B (Lookahead.peek 0) C := by
  refine peek fun t b q hb hq ht => ?_
  cases b with
  | nil =>
    obtain ⟨u, rfl⟩ := List.length_eq_one_iff.mp hq
    cases ht
    exact h' _ hb
  | cons u b =>
    obtain rfl : q = [] := List.length_eq_zero_iff.mp (by rw [hq, List.length_cons]; omega)
    cases ht
    rw [List.append_nil]
    exact h _ b hb

theorem small_next {C : Token → List Token → Prop} (h : ∀ t, C t [t]) : Spends Small (Lookahead.peek 0) C := by
  refine next (fun t b hb => ?_) fun t _ => h t
  obtain rfl : b = [] := List.length_eq_zero_iff.mp (Nat.le_zero.mp (Nat.le_of_succ_le_succ hb))
  exact h t

theorem throw_only {t : Token} {f : Fault} (h : f.offender? = some t) : Spends (α := α) (· = [t]) (MonadExcept.throw f) C := by
  intro r _ hb u hu
  obtain rfl := Option.some.inj (h.symm.trans hu)
  exact hb

/-- A fault about the next token, when no other is buffered. -/
theorem blame {g : Token → Fault} (hg : ∀ t, (g t).offender? = some t) :
    Spends (α := α) Small (Lookahead.peek 0 >>= fun t => MonadExcept.throw (g t)) C :=
  .bind (C := fun t b => b = [t]) (small_next fun _ => rfl) fun t => .throw_only (hg t)

theorem small_peekKind : Spends Small (Lookahead.peekKind 0) fun k b => ∃ t, b = [t] ∧ k = t.kind :=
  .bind (C := fun t b => b = [t]) (small_next fun _ => rfl) fun t => .pure fun _ hb => ⟨t, hb, rfl⟩

/-- The next token is the only one in the buffer. -/
theorem small_nextKind {g : Kind → Reading Replay α} (h : ∀ t, Spends (fun b => b = [t]) (g t.kind) C) :
    Spends Small (Lookahead.peekKind 0 >>= g) C := by
  refine .bind small_peekKind fun k r hr hb => ?_
  obtain ⟨t, hb, rfl⟩ := hb
  exact h t r hr hb

theorem take_only {t : Token} {g : Token → Reading Replay α} (h : Proper t → Spends (· = []) (g t) C) :
    Spends (· = [t]) (Lookahead.take >>= g) C := by
  refine .bind (.take (C := fun u b => Proper t ∧ u = t ∧ b = []) (fun u b hu hb => ?_) fun _ _ => nofun) fun u r hr hb => ?_
  · obtain ⟨rfl, rfl⟩ := List.cons.inj hb
    exact ⟨hu, rfl, rfl⟩
  · obtain ⟨ht, rfl, hb⟩ := hb
    exact h ht r hr hb

end Spends

/-! ## One token ahead -/

theorem small_nil (b : List Token) (h : b = []) : Small b := h ▸ Nat.zero_le 1

theorem small_one {t : Token} (b : List Token) (h : b = [t]) : Small b := h ▸ Nat.le_refl 1

/-- Readers that look one token ahead buffer no more. -/
theorem spare : Near (σ := Replay) (τ := Replay) fun _ m => Spends Small m fun _ => Small where
  pure _ := .pure fun _ => id
  bind h hg := .bind h hg
  shallow _ := .throw rfl
  unsupported _ := .throw rfl
  next := .small_next fun _ => Nat.le_refl 1
  take := .take (fun _ _ _ hb => Nat.le_of_succ_le hb) fun _ _ => id
  fail _ := .blame fun _ => rfl
  name? := by
    refine .small_nextKind fun t => ?_
    by_cases hk : t.kind = .name
    · rw [if_pos hk]
      refine .take_only fun ht => ?_
      rw [if_pos (ht hk)]
      exact .pure small_nil
    · rw [if_neg hk]
      exact .pure small_one
  literal? := by
    refine .bind (C := fun t b => b = [t]) (.small_next fun _ => rfl) fun t => ?_
    cases hl : literalOf t with
    | error f =>
      obtain ⟨form, rfl⟩ := literalOf_error hl
      exact .throw_only rfl
    | ok v =>
      cases v with
      | none => exact .pure small_one
      | some v => exact .take_only fun _ => .pure small_nil

/-! ## A name and one token more -/

/-- What is buffered once a name has been looked past. -/
def Past (b : List Token) : Prop := ∃ t u, b = [t, u] ∧ t.kind = .name

namespace Spends

variable {α : Type} {C : α → List Token → Prop} {n : Nat}

theorem past_nextKind {g : Kind → Reading Replay α} (h : Spends Past (g .name) C) :
    Spends Past (Lookahead.peekKind 0 >>= g) C := by
  have hk : Spends Past (Lookahead.peekKind 0) fun k b => k = .name ∧ Past b := by
    refine .bind (C := fun t b => t.kind = .name ∧ Past b) (next (fun t b hb => ?_) fun t hb => ?_) fun t => ?_
    · obtain ⟨u, v, he, hu⟩ := hb
      obtain ⟨rfl, -⟩ := List.cons.inj he
      exact ⟨hu, _, _, he, hu⟩
    · obtain ⟨u, v, he, -⟩ := hb
      cases he
    · exact .pure fun _ hb => hb
  refine .bind hk fun k r hr hb => ?_
  obtain ⟨rfl, hb⟩ := hb
  exact h r hr hb

/-- The name is taken before anything can be wrong. -/
theorem past_name? : Spends Past Grammar.name? fun found b => found ≠ none ∧ Small b := by
  refine past_nextKind ?_
  rw [if_pos rfl]
  refine .bind (C := fun t b => isProperName t.text = true ∧ Small b) (take (fun t b ht hb => ?_) fun t _ hb => ?_) fun t => ?_
  · obtain ⟨u, v, he, hu⟩ := hb
    obtain ⟨rfl, rfl⟩ := List.cons.inj he
    exact ⟨ht hu, Nat.le_refl 1⟩
  · obtain ⟨u, v, he, -⟩ := hb
    cases he
  · intro r hr hb
    rw [if_pos hb.1]
    exact ⟨hr, nofun, hb.2⟩

theorem past_name (w : Expectation) : Spends Past (Grammar.name w) fun _ => Small := by
  refine .bind past_name? fun found => ?_
  cases found with
  | none => exact fun _ _ hb => absurd rfl hb.1
  | some found => exact .pure fun _ hb => hb.2

theorem past_atom : Spends Past (atom? n) fun _ => Small := by
  cases n with
  | zero => exact .throw rfl
  | succ n =>
    rw [atom?]
    refine past_nextKind ?_
    rw [if_neg (by decide)]
    refine .bind past_name? fun found => ?_
    cases found with
    | none => exact fun _ _ hb => absurd rfl hb.1
    | some found =>
      refine (Spends.bind ((spare.readers (Nat.le_refl n)).reference found) fun e => spare.pure (some e)).mono ?_ fun _ _ => id
      exact fun _ hb => hb.2

theorem past_expression : Spends Past (expression? n) fun _ => Small := by
  cases n with
  | zero => exact .throw rfl
  | succ n =>
    rw [expression?]
    refine .bind past_atom fun a => ?_
    cases a with
    | none => exact spare.pure none
    | some left => exact .bind ((spare.readers (Nat.le_refl n)).climb left 0) fun e => spare.pure (some e)

theorem past_bare : Spends Past ((return (← expression? n).map Stmt.expression) : Reading Replay (Option Stmt)) fun _ => Small :=
  .bind past_expression fun _ => spare.pure _

theorem past_assignment : Spends Past (assignment? n) fun _ => Small := by
  refine .bind (past_name _) fun target => .bind (spare.expect _ _) fun _ => ?_
  exact .bind (spare.readers (Nat.le_refl n)).expression fun e => spare.pure _

end Spends

/-! ## Statements that are reached -/

/-- A statement starts the first tokens, and reading it comes to a block with the others in it. -/
inductive Enters : List Token → List Token → Prop
  | block {o : Token} {x : List Token} : o.kind = .openBrace → Enters (o :: x) x
  | ifThen {i o : Token} {x y : List Token} {e : Expr} : i.kind = .ifWord → Expression x e (o :: y) →
      o.kind = .openBrace → Enters (i :: x) y
  | ifElse {i k o : Token} {x y z g : List Token} {e : Expr} {b : Scope} : i.kind = .ifWord → Expression x e y →
      Block y b (g ++ k :: o :: z) → (∀ t ∈ g, isLayout t) → k.kind = .elseWord → o.kind = .openBrace → Enters (i :: x) z
  | whileLoop {w o : Token} {x y : List Token} {e : Expr} : w.kind = .whileWord → Expression x e (o :: y) →
      o.kind = .openBrace → Enters (w :: x) y
  | define {d t p o : Token} {x y : List Token} {ps : List String} : d.kind = .defWord → Named t →
      p.kind = .openParen → Parameters x ps (o :: y) → o.kind = .openBrace → Enters (d :: t :: p :: x) y

theorem Enters.starts {x y : List Token} (h : Enters x y) : ∃ t z, x = t :: z ∧ startsStatement t.kind = true := by
  cases h with
  | block ho => exact ⟨_, _, rfl, by rw [ho]; rfl⟩
  | ifThen hi => exact ⟨_, _, rfl, by rw [hi]; rfl⟩
  | ifElse hi => exact ⟨_, _, rfl, by rw [hi]; rfl⟩
  | whileLoop hw => exact ⟨_, _, rfl, by rw [hw]; rfl⟩
  | define hd => exact ⟨_, _, rfl, by rw [hd]; rfl⟩

/-- Reading the statements in the first tokens comes to the others for a statement. -/
inductive Reached : List Token → List Token → Prop
  | here {x : List Token} : Reached x x
  | skip {t : Token} {x y : List Token} : t.kind.isSeparator = true → Reached x y → Reached (t :: x) y
  | next {x y z : List Token} {s : Stmt} : Statement x s y → Ended y → Reached y z → Reached x z
  | inside {x y z : List Token} : Enters x y → Reached y z → Reached x z

/-- No statement that is reached starts with a name and an opening bracket. -/
def Plain (x : List Token) : Prop :=
  ∀ t o z, Reached x (t :: o :: z) → t.kind = .name → o.kind ≠ .openBracket

namespace Plain

variable {x y : List Token}

theorem skip {t : Token} (h : Plain (t :: x)) (ht : t.kind.isSeparator = true) : Plain x :=
  fun u o z hr => h u o z (.skip ht hr)

theorem next {s : Stmt} (h : Plain x) (hs : Statement x s y) (hy : Ended y) : Plain y :=
  fun u o z hr => h u o z (.next hs hy hr)

theorem inside (h : Plain x) (hy : Enters x y) : Plain y := fun u o z hr => h u o z (.inside hy hr)

/-- No statement is reached at a token that starts none, nor beyond it unless it is a separator. -/
theorem of_not_starts {t : Token} (ht : startsStatement t.kind = false) (hx : t.kind.isSeparator = true → Plain x) :
    Plain (t :: x) := by
  have clash {u : Token} {z : List Token} (h : t :: x = u :: z) (hu : startsStatement u.kind = true) : False := by
    cases h
    rw [ht] at hu
    cases hu
  intro u o z hr hk
  cases hr with
  | here => exact (clash rfl (by rw [hk]; rfl)).elim
  | skip hs hr => exact hx hs u o z hr hk
  | next hs =>
    obtain ⟨v, y, he, hv⟩ := hs.starts
    exact (clash he hv).elim
  | inside he =>
    obtain ⟨v, y, he, hv⟩ := he.starts
    exact (clash he hv).elim

end Plain

/-- A buffer with layout only before its last token. -/
def Gapped (b : List Token) : Prop := ∀ t ∈ b.dropLast, isLayout t

theorem Small.gapped {b : List Token} (h : Small b) : Gapped b := by
  match b, h with
  | [], _ => exact nofun
  | [t], _ => exact nofun

theorem Gapped.tail {t : Token} {b : List Token} (h : Gapped (t :: b)) : Gapped b := by
  cases b with
  | nil => exact nofun
  | cons u b => exact fun v hv => h v (List.mem_cons_of_mem _ hv)

theorem Gapped.small {t : Token} {b : List Token} (h : Gapped (t :: b)) (ht : ¬ isLayout t) : Small (t :: b) := by
  cases b with
  | nil => exact Nat.le_refl 1
  | cons u b => exact absurd (h t (List.mem_cons_self ..)) ht

theorem gapped_of_ahead {last : Except Fault Token} {r : Lookahead Replay} {g x : List Token} (h : Ahead last r (g ++ x))
    (hb : r.buffer.length ≤ g.length + 1) (hg : ∀ t ∈ g, isLayout t) : Gapped r.buffer := by
  have hd : r.buffer.dropLast = (g ++ x).take (r.buffer.length - 1) := by
    cases h with
    | pending hx => rw [← hx, List.take_append_of_le_length (Nat.sub_le ..), List.dropLast_eq_take]
    | ended hx => rw [hx, List.dropLast_concat, List.length_append, List.length_singleton, Nat.add_sub_cancel, List.take_length]
  intro t ht
  rw [hd, List.take_append_of_le_length (Nat.sub_le_of_le_add hb)] at ht
  exact hg t (List.mem_of_mem_take ht)

/-! ## Readers of statements -/

/-- `Spends`, with these tokens ahead. -/
def Tidy {α : Type} (last : Except Fault Token) (x : List Token) (B : List Token → Prop) (m : Reading Replay α)
    (C : α → List Token → Prop) : Prop :=
  ∀ r, Ahead last r x → Clean r → B r.buffer → match m r with
    | .ok a r' => Clean r' ∧ C a r'.buffer
    | .error f r' => ∀ t, f.offender? = some t → r'.buffer = [t]

section

variable {α β : Type} {last : Except Fault Token} {x : List Token} {B B' : List Token → Prop} {m : Reading Replay α}
  {C C' : α → List Token → Prop} {n : Nat}

theorem Spends.tidy (h : Spends B m C) : Tidy last x B m C := fun r _ hr hb => h r hr hb

namespace Tidy

theorem mono (h : Tidy last x B m C) (hB : ∀ b, B' b → B b) (hC : ∀ a b, C a b → C' a b) : Tidy last x B' m C' := by
  intro r ha hr hb
  have hm := h r ha hr (hB _ hb)
  revert hm
  cases m r with
  | error f r' => exact id
  | ok a r' => exact fun hm => ⟨hm.1, hC a _ hm.2⟩

/-- One reading after another; the first is judged for what it takes, too. -/
theorem bind {g : α → Reading Replay β} {Q : α → List Token → Prop} {E : Fault → List Token → Prop}
    {D : β → List Token → Prop} (hq : Reads last m x Q E) (h : Tidy last x B m C)
    (hg : ∀ a y, Q a y → Tidy last y (C a) (g a) D) : Tidy last x B (m >>= g) D := by
  intro r ha hr hb
  have hm := h r ha hr hb
  have hy := hq r ha
  revert hm hy
  simp only [Bind.bind, EStateM.bind]
  cases m r with
  | error f r' => exact fun hm _ => hm
  | ok a r' =>
    intro hm hy
    obtain ⟨y, hy, ha'⟩ := hy
    exact hg a y ha' r' hy hm.1 hm.2

theorem andThen {g : α → Reading Replay β} {D : β → List Token → Prop} (h : Tidy last x B m C)
    (hg : ∀ a, Spends (C a) (g a) D) : Tidy last x B (m >>= g) D := by
  intro r ha hr hb
  have hm := h r ha hr hb
  revert hm
  simp only [Bind.bind, EStateM.bind]
  cases m r with
  | error f r' => exact id
  | ok a r' => exact fun hm => hg a r' hm.1 hm.2

theorem nextKind {g : Kind → Reading Replay α} {D : Kind → List Token → Prop} (hs : Spends B (peekKind 0) D)
    (h : ∀ t, Next last x t → Tidy last x (D t.kind) (g t.kind) C) : Tidy last x B (peekKind 0 >>= g) C := by
  refine .bind (E := fun _ _ => True) (.nextKind (Q := fun k y => y = x ∧ ∃ t, Next last x t ∧ k = t.kind)
    fun t ht => ⟨rfl, t, ht, rfl⟩) hs.tidy ?_
  intro k y hy
  obtain ⟨rfl, t, ht, rfl⟩ := hy
  exact h t ht

/-- The next token is taken. -/
theorem take {t : Token} {D : List Token → Prop} {g : Token → Reading Replay α} (ht : Next last x t)
    (hk : t.kind ≠ .endOfText) (hs : Spends B Lookahead.take fun _ => D) (h : ∀ y, x = t :: y → Tidy last y D (g t) C) :
    Tidy last x B (Lookahead.take >>= g) C := by
  obtain ⟨y, rfl⟩ := ht.cons hk
  refine .bind (Q := fun u z => u = t ∧ z = y) (E := fun _ _ => True) (.take ⟨rfl, rfl⟩) hs.tidy ?_
  rintro _ _ ⟨rfl, rfl⟩
  exact h _ rfl

/-- The next token is layout, or no other token is buffered. -/
theorem gapped_nextKind {g : Kind → Reading Replay α}
    (h : ∀ t, Next last x t → Tidy last x (fun b => Gapped b ∧ (isLayout t ∨ Small b)) (g t.kind) C) :
    Tidy last x Gapped (peekKind 0 >>= g) C := by
  refine nextKind (D := fun k b => Gapped b ∧ ((k = .newline ∨ k = .comment) ∨ Small b)) ?_ h
  refine .bind (C := fun t b => Gapped b ∧ (isLayout t ∨ Small b)) (.next (fun t b hb => ⟨hb, ?_⟩) fun t _ => ?_) fun t => ?_
  · by_cases ht : isLayout t
    · exact .inl ht
    · exact .inr (hb.small ht)
  · exact ⟨nofun, .inr (Nat.le_refl 1)⟩
  · exact .pure fun _ hb => hb

end Tidy

/-- What the buffer is when a statement has been read, or none was found. -/
def AfterStatement (found : Option Stmt) (b : List Token) : Prop := (found = none → Small b) ∧ Gapped b

theorem Small.afterStatement {b : List Token} {found : Option Stmt} (h : Small b) : AfterStatement found b := ⟨fun _ => h, h.gapped⟩

theorem Gapped.afterStatement {b : List Token} {s : Stmt} (h : Gapped b) : AfterStatement (some s) b := ⟨nofun, h⟩

/-- Looking at a token buffers those in front of it, and no more. -/
theorem Spends.peekKind_length (n : Nat) : Spends (fun b => b.length ≤ n + 1) (peekKind n) fun _ b => b.length ≤ n + 1 := by
  refine .bind (C := fun _ b => b.length ≤ n + 1) (.peek fun t b q hb hq _ => ?_) fun _ => .pure fun _ => id
  rw [List.length_append, hq]
  omega

/-- The search for an `else` stops at the token that it finds. -/
theorem Spends.pastLayout (ahead : Nat) :
    Spends (fun b => b.length ≤ ahead + 1) (pastLayout n ahead) fun a b => b.length ≤ a + 1 := by
  induction n generalizing ahead with
  | zero => exact .throw rfl
  | succ n ih =>
    rw [Grammar.pastLayout]
    refine .bind (.peekKind_length ahead) fun kind => ?_
    by_cases hk : kind = .newline ∨ kind = .comment
    · rw [if_pos hk]
      exact (ih (ahead + 1)).mono (fun _ => Nat.le_succ_of_le) fun _ _ => id
    · rw [if_neg hk]
      exact .pure fun _ => id

theorem Spends.skip (n : Nat) : Spends (fun b => b.length ≤ n) (skip n) fun _ b => b = [] := by
  induction n with
  | zero => exact .pure fun _ hb => List.length_eq_zero_iff.mp (Nat.le_zero.mp hb)
  | succ n ih =>
    exact .bind (.take (fun _ _ _ hb => Nat.le_of_succ_le_succ hb) fun _ _ _ => n.zero_le) fun _ => ih

/-- Looking past a name. -/
theorem Spends.past_peekKind : Spends (fun b => ∃ t, b = [t] ∧ t.kind = .name) (peekKind 1) fun _ => Past := by
  refine .bind (C := fun _ => Past) (.peek fun u b q hb hq _ => ?_) fun _ => .pure fun _ => id
  obtain ⟨t, rfl, ht⟩ := hb
  obtain ⟨v, rfl⟩ := List.length_eq_one_iff.mp hq
  exact ⟨t, v, rfl, ht⟩

/-- A statement without a block, if it does not start with a name and an opening bracket. -/
theorem plainStatement_tidy (hx : Plain x) : Tidy last x Small (plainStatement? n) AfterStatement := by
  have bare : Spends Small ((return (← expression? n).map Stmt.expression) : Reading Replay (Option Stmt)) fun _ => Small :=
    spare.bare (Nat.le_refl n)
  suffices Tidy last x Small (plainStatement? n) fun _ => Small from this.mono (fun _ => id) fun _ _ => Small.afterStatement
  refine .nextKind .small_peekKind fun t ht => ?_
  by_cases hk : t.kind = .name
  · rw [if_pos hk]
    obtain ⟨x, rfl⟩ := ht.cons (by simp [hk])
    refine .bind (E := fun _ _ => True) (.peekKind (p := [t]) (Q := fun k y => ∃ u, Next last x u ∧ k = u.kind)
      fun u hu => ⟨u, hu, rfl⟩) (Spends.past_peekKind.mono ?_ fun _ _ => id).tidy ?_
    · exact fun b hb => hb.imp fun _ hv => ⟨hv.1, hv.2.symm.trans hk⟩
    intro k y hu
    obtain ⟨u, hu, rfl⟩ := hu
    by_cases hq : u.kind = .assign
    · rw [if_pos hq]
      exact Spends.past_assignment.tidy
    rw [if_neg hq]
    by_cases ho : u.kind = .openBracket
    · obtain ⟨x, rfl⟩ := hu.cons (by simp [ho])
      exact absurd ho (hx t u x .here hk)
    · rw [if_neg ho]
      exact Spends.past_bare.tidy
  · rw [if_neg hk]
    exact (bare.mono (fun b hb => small_one b hb.choose_spec.1) fun _ _ => id).tidy

end

/-- How readers of statements leave the buffer at depth `n`. -/
structure TidyReaders (last : Except Fault Token) (n : Nat) : Prop where
  scope {x : List Token} : 8 * x.length + 4 ≤ n → Plain x → Tidy last x Gapped (scope n) fun _ => Small
  block {x : List Token} : 8 * x.length + 1 ≤ n → (∀ o y, x = o :: y → o.kind = .openBrace → Plain y) →
    Tidy last x Small (block n) fun _ => Small
  statement {x : List Token} : 8 * x.length + 3 ≤ n → Plain x → Tidy last x Small (statement? n) AfterStatement
  conditional {i : Token} {x : List Token} : i.kind = .ifWord → 8 * x.length + 3 ≤ n → Plain (i :: x) →
    Tidy last x Small (conditional n) fun _ => Gapped

namespace TidyReaders

variable {last : Except Fault Token} {n : Nat} {x : List Token} (ih : TidyReaders last n)

include ih

theorem scope_succ (hn : 8 * x.length + 4 ≤ n + 1) (hx : Plain x) :
    Tidy last x Gapped (Grammar.scope (n + 1)) fun _ => Small := by
  rw [Grammar.scope]
  refine .gapped_nextKind ?_
  intro t ht
  by_cases hk : t.kind = .endOfText ∨ t.kind.closesScope = true
  · rw [if_pos hk]
    refine (Spends.pure fun b hb => hb.2.resolve_left ?_).tidy
    intro hl
    rcases hk with hk | hk
    · exact hl.kind_ne hk
    · rcases hl with hl | hl <;> rw [hl] at hk <;> cases hk
  rw [if_neg hk]
  have hne : t.kind ≠ .endOfText := fun h => hk (.inl h)
  by_cases hs : t.kind.isSeparator = true
  · rw [if_pos hs]
    refine .take ht hne (D := Gapped) (.take (fun _ _ _ hb => hb.1.tail) fun _ _ _ => nofun) ?_
    rintro x rfl
    simp only [List.length_cons] at hn
    exact ih.scope (by omega) (hx.skip hs)
  rw [if_neg hs]
  have small : ∀ b, Gapped b ∧ (isLayout t ∨ Small b) → Small b := fun b hb => hb.2.resolve_left fun hl => hs hl.isSeparator
  refine .bind ((statementReaders n).statement (by omega)) ((ih.statement (by omega) hx).mono small fun _ _ => id) ?_
  intro found y hfound
  cases found with
  | none => exact ((Spends.blame fun _ => rfl).mono (fun b hb => hb.1 rfl) fun _ _ => id).tidy
  | some s =>
    have hstatement : Statement x s y := hfound s rfl
    have hl := hstatement.length_lt
    refine .mono (.gapped_nextKind ?_) (fun b hb => hb.2) fun _ _ => id
    intro u hu
    by_cases he : u.kind.endsStatement = true
    · rw [if_pos he]
      have hscope := ih.scope (x := y) (by omega) (hx.next hstatement (.of_next hu he))
      exact .andThen (hscope.mono (fun b hb => hb.1) fun _ _ => id) fun b => .pure fun _ => id
    · rw [if_neg he]
      refine ((spare.fail _).mono (fun b hb => hb.2.resolve_left ?_) fun _ _ => id).tidy
      intro hl
      rw [Kind.endsStatement, hl.isSeparator] at he
      exact he rfl

theorem block_succ (hn : 8 * x.length + 1 ≤ n + 1) (hx : ∀ o y, x = o :: y → o.kind = .openBrace → Plain y) :
    Tidy last x Small (Grammar.block (n + 1)) fun _ => Small := by
  rw [Grammar.block]
  refine .bind (Q := fun o y => x = o :: y ∧ o.kind = .openBrace) (E := fun _ _ => True)
    (.expect (by decide) (fun o y hy ho => ⟨hy, ho⟩) fun _ _ _ => trivial) (spare.expect _ _).tidy ?_
  intro o y hy
  obtain ⟨rfl, ho⟩ := hy
  simp only [List.length_cons] at hn
  have hscope := ih.scope (x := y) (by omega) (hx o y rfl ho)
  refine .andThen (hscope.mono (fun _ => Small.gapped) fun _ _ => id) fun b => ?_
  exact .bind (spare.expect _ _) fun _ => spare.pure b

theorem conditional_succ {i : Token} (hi : i.kind = .ifWord) (hn : 8 * x.length + 3 ≤ n + 1) (hx : Plain (i :: x)) :
    Tidy last x Small (Grammar.conditional (n + 1)) fun _ => Gapped := by
  rw [Grammar.conditional]
  refine .bind ((expressionReaders n).required (by omega)) ((spare.readers (Nat.le_refl n)).required spare _).tidy ?_
  intro e y he
  have hl := he.length_lt
  refine .bind ((statementReaders n).block (by omega)) (ih.block (by omega) ?_) ?_
  · rintro o z rfl ho
    exact hx.inside (.ifThen hi he ho)
  intro b u hb
  have hl' := hb.length_lt
  refine .bind (Q := fun a v => ∃ g z, u = g ++ z ∧ v = u ∧ a = g.length ∧ ∀ t ∈ g, isLayout t) (E := fun _ _ => True)
    (.pastLayout (g := []) (x := u) (.inr fun _ => trivial) (List.forall_mem_nil _) fun g z hz hg _ => ⟨g, z, hz, rfl, rfl, hg⟩)
    (Spends.pastLayout 0).tidy ?_
  rintro _ _ ⟨g, z, rfl, rfl, rfl, hg⟩
  refine .bind (E := fun _ _ => True) (.peekKind (p := g) (x := z) (Q := fun k v => v = g ++ z ∧ ∃ t, Next last z t ∧ k = t.kind)
    fun t ht => ⟨rfl, t, ht, rfl⟩) (Spends.peekKind_length _).tidy ?_
  rintro _ _ ⟨rfl, k, hk, rfl⟩
  by_cases hkind : k.kind = .elseWord
  · rw [if_pos hkind]
    obtain ⟨z, rfl⟩ := hk.cons (by simp [hkind])
    simp only [List.length_append, List.length_cons] at hl'
    refine .bind (Q := fun _ v => v = z) (E := fun _ _ => True) (.skipPast rfl) (Spends.skip _).tidy ?_
    rintro _ _ rfl
    refine .andThen ((ih.block (by omega) ?_).mono small_nil fun _ _ => id) fun b' => .pure fun _ => Small.gapped
    rintro o v rfl ho
    exact hx.inside (.ifElse hi he hb hg hkind ho)
  · rw [if_neg hkind]
    exact fun r hr hclean hsize => ⟨hclean, gapped_of_ahead hr hsize hg⟩

theorem statement_succ (hn : 8 * x.length + 3 ≤ n + 1) (hx : Plain x) :
    Tidy last x Small (statement? (n + 1)) AfterStatement := by
  rw [statement?]
  refine .nextKind spare.nextKind ?_
  intro t ht
  have plain {x : List Token} {m : Reading Replay (Option Stmt)} (h : Spends Small m fun _ => Small) :
      Tidy last x Small m AfterStatement := (h.mono (fun _ => id) fun _ _ => Small.afterStatement).tidy
  have closed {x : List Token} {m : Reading Replay Scope} {g : Scope → Option Stmt} (h : Tidy last x Small m fun _ => Small) :
      Tidy last x Small (m >>= fun b => pure (g b)) AfterStatement :=
    h.andThen fun _ => .pure fun _ => Small.afterStatement
  split
  · exact plain (.bind spare.take fun _ => spare.declaration (Nat.le_refl n))
  · rename_i hk
    refine .take ht (by simp [hk]) spare.take ?_
    rintro x rfl
    simp only [List.length_cons] at hn
    exact (ih.conditional hk (by omega) hx).andThen fun s => .pure fun _ => Gapped.afterStatement
  · rename_i hk
    refine .take ht (by simp [hk]) spare.take ?_
    rintro x rfl
    simp only [List.length_cons] at hn
    refine .bind ((expressionReaders n).required (by omega)) ((spare.readers (Nat.le_refl n)).required spare _).tidy ?_
    intro e y he
    have hl := he.length_lt
    refine closed (ih.block (by omega) ?_)
    rintro o z rfl ho
    exact hx.inside (.whileLoop hk he ho)
  · rename_i hk
    refine .take ht (by simp [hk]) spare.take ?_
    rintro v rfl
    simp only [List.length_cons] at hn
    refine .bind (Q := fun _ y => ∃ f, v = f :: y ∧ Named f) (E := fun _ _ => True)
      (.name (fun f y hy hf => ⟨f, hy, hf⟩) (fun _ _ _ _ _ => trivial) fun _ _ _ => trivial) (spare.name _).tidy ?_
    rintro _ y ⟨f, rfl, hf⟩
    refine .bind (Q := fun o z => y = o :: z ∧ o.kind = .openParen) (E := fun _ _ => True)
      (.expect (by decide) (fun o z hz ho => ⟨hz, ho⟩) fun _ _ _ => trivial) (spare.expect _ _).tidy ?_
    rintro o z ⟨rfl, ho⟩
    simp only [List.length_cons] at hn
    refine .bind (parameters_reads (by omega)) (spare.parameters (Nat.le_refl n)).tidy ?_
    intro ps u hps
    have hl := hps.length_lt
    refine closed (ih.block (by omega) ?_)
    rintro o' v rfl ho'
    exact hx.inside (.define hk hf ho hps ho')
  · exact plain (.bind spare.take fun _ => .bind (spare.returned (Nat.le_refl n)) fun s => spare.pure (some s))
  · rename_i hk
    refine closed (ih.block (by omega) ?_)
    rintro o z rfl ho
    exact hx.inside (.block ho)
  · exact plainStatement_tidy hx

end TidyReaders

theorem tidyReaders (last : Except Fault Token) (n : Nat) : TidyReaders last n := by
  induction n with
  | zero => constructor <;> intros <;> omega
  | succ n ih => exact ⟨ih.scope_succ, ih.block_succ, ih.statement_succ, ih.conditional_succ⟩

/-- A fault of a program is found with its token as the only one in the buffer. -/
theorem wholeScope_tidy {last : Except Fault Token} {n : Nat} {x : List Token} (hn : 8 * x.length + 4 ≤ n) (hx : Plain x) :
    Tidy last x Small (wholeScope n) fun _ _ => True := by
  refine .andThen (((tidyReaders last n).scope hn hx).mono (fun _ => Small.gapped) fun _ _ => id) fun root => ?_
  refine .bind (C := fun t b => b = [t]) (.small_next fun _ => rfl) fun t => ?_
  by_cases hk : t.kind = .endOfText
  · rw [if_pos hk]
    exact .pure fun _ _ => trivial
  · rw [if_neg hk]
    exact .throw_only rfl

end ScriptLang.Grammar
