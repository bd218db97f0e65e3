/-
  ScriptLang.Proofs.Grammar.Soundness — what a reader returns derives from what it took.

  Each reader, run at a depth that the tokens ahead allow, returns a value by its rule of the
  grammar, and never fails for want of depth: a level of the recursion that takes no token
  is followed within eight levels by one that does. The readers call each other, so their
  judgements are proved together, by induction on the depth.
  - `expressionReaders` / `statementReaders`: the judgements of all readers at every depth.
  - `wholeScope_reads`: a program that is read derives from all the tokens before the end.
-/

import ScriptLang.Proofs.Grammar.Steps

namespace ScriptLang.Grammar

open Lookahead
open Token (Kind)

variable {σ α : Type} [TokenStream σ] {last : Except Fault Token}

/-- A fault that is not for want of depth. -/
def Deep (f : Fault) (_ : List Token) : Prop := f ≠ .tooDeep

section

variable {t : Token} {x : List Token}

theorem Deep.unexpected {w : Expectation} : Deep (.unexpected w t) x := nofun

theorem Deep.noStatement : Deep (.noStatement t) x := nofun

theorem Deep.unsupported : Deep (.unsupportedOperator t) x := nofun

theorem Deep.malformed {form : LiteralForm} : Deep (.malformed t form) x := nofun

theorem Deep.trailing : Deep (.trailing t) x := nofun

end

/-- No token is next that is an operator of rank `least` or more. -/
def StopsBelow (last : Except Fault Token) (least : Nat) (x : List Token) : Prop :=
  ∀ t, Next last x t → ∀ p, t.kind.precedence? = some p → p < least

/-- No operator is next that binds into the right operand of an operator of rank `rank`. -/
def StopsRight (last : Except Fault Token) (rank : Nat) (x : List Token) : Prop :=
  ∀ t, Next last x t → ∀ p, t.kind.precedence? = some p → ¬ fitsRight rank p

theorem StopsBelow.of_next {x : List Token} {t : Token} {least : Nat} (ht : Next last x t)
    (h : ∀ p, t.kind.precedence? = some p → p < least) : StopsBelow last least x := fun _ hu => hu.unique ht ▸ h

theorem StopsRight.of_next {x : List Token} {t : Token} {rank : Nat} (ht : Next last x t)
    (h : ∀ p, t.kind.precedence? = some p → ¬ fitsRight rank p) : StopsRight last rank x := fun _ hu => hu.unique ht ▸ h

theorem Chain.next {x y : List Token} {ops : List Link} {o : Link} (h : Chain x ops y) (ho : o ∈ ops.head?) :
    ∃ t, Next last x t ∧ t.kind.precedence? = some o.1.precedence := by
  cases h with
  | nil => cases ho
  | cons hk _ _ =>
    cases ho
    have hp := BinaryOp.precedence_of_ofKind? hk
    exact ⟨_, .token fun he => by simp [he, Kind.precedence?] at hp, hp⟩

theorem Chain.append {x y z : List Token} {ops ops' : List Link} (h : Chain x ops y) (h' : Chain y ops' z) :
    Chain x (ops ++ ops') z := by
  induction ops generalizing x with
  | nil => cases h; exact h'
  | cons o ops ih => cases h with | cons hk ha hc => exact .cons hk ha (ih hc)

theorem Chain.length_lt {x y : List Token} {o : Link} {ops : List Link} (h : Chain x (o :: ops) y) :
    y.length < x.length := by
  cases h with
  | cons _ ha hc => exact Nat.lt_succ_of_lt (Nat.lt_of_le_of_lt hc.length_le ha.length_lt)

/-- What `climb` ends in. -/
def Climbed (last : Except Fault Token) (least : Nat) (left : Expr) (x : List Token) (e : Expr) (y : List Token) : Prop :=
  ∃ ops, Chain x ops y ∧ Grouped left ops e ∧ (∀ o ∈ ops, least ≤ o.1.precedence) ∧ StopsBelow last least y

/-- What `absorb` ends in. -/
def Absorbed (last : Except Fault Token) (rank : Nat) (right : Expr) (x : List Token) (e : Expr) (y : List Token) : Prop :=
  ∃ ops, Chain x ops y ∧ Grouped right ops e ∧ (∀ o ∈ ops, fitsRight rank o.1.precedence) ∧ StopsRight last rank y

theorem Climbed.stop {x : List Token} {t : Token} {least : Nat} {left : Expr} (ht : Next last x t)
    (h : ∀ p, t.kind.precedence? = some p → p < least) : Climbed last least left x left x :=
  ⟨[], .nil, .operand, nofun, .of_next ht h⟩

theorem Absorbed.stop {x : List Token} {t : Token} {rank : Nat} {right : Expr} (ht : Next last x t)
    (h : ∀ p, t.kind.precedence? = some p → ¬ fitsRight rank p) : Absorbed last rank right x right x :=
  ⟨[], .nil, .operand, nofun, .of_next ht h⟩

/-- An operator of rank `least` or more that is next is taken. -/
theorem Climbed.takes {x y : List Token} {t : Token} {least next : Nat} {left e : Expr}
    (h : Climbed last least left x e y) (ht : Next last x t) (hp : t.kind.precedence? = some next) (hle : least ≤ next) :
    ∃ o ops, Chain x (o :: ops) y := by
  rcases h with ⟨ops, hc, -, -, hstop⟩
  cases ops with
  | nil =>
    cases hc
    exact absurd (hstop t ht next hp) (Nat.not_lt_of_le hle)
  | cons o ops => exact ⟨o, ops, hc⟩

/-- The judgements of the readers of expressions at depth `n`. -/
structure ExpressionReaders (σ : Type) [TokenStream σ] (last : Except Fault Token) (n : Nat) : Prop where
  expression {x : List Token} : 8 * x.length + 2 ≤ n →
    Reads last (expression? (σ := σ) n) x (Maybe Expression x) Deep
  climb {x : List Token} {left : Expr} {least : Nat} : 8 * x.length + 1 ≤ n →
    Reads last (climb (σ := σ) n left least) x (Climbed last least left x) Deep
  absorb {x : List Token} {right : Expr} {rank : Nat} : rank ≤ 8 → 8 * x.length + 2 ≤ n →
    Reads last (absorb (σ := σ) n right rank) x (Absorbed last rank right x) Deep
  atom {x : List Token} : 8 * x.length + 1 ≤ n → Reads last (atom? (σ := σ) n) x (Maybe Atom x) Deep
  reference {t : Token} {x : List Token} : Named t → 8 * x.length + 1 ≤ n →
    Reads last (reference (σ := σ) n t.text) x (Atom (t :: x)) Deep
  arguments {x : List Token} : 8 * x.length + 3 ≤ n → Reads last (arguments (σ := σ) n) x (Arguments x) Deep

namespace ExpressionReaders

variable {n : Nat} {x : List Token} (ih : ExpressionReaders σ last n)

include ih

theorem required {w : Expectation} (hn : 8 * x.length + 2 ≤ n) :
    Reads last (Grammar.expression (σ := σ) n w) x (Expression x) Deep :=
  .seq (ih.expression hn) fun r y hr => .require (fun e he => by subst he; exact hr) fun _ _ _ => .unexpected

theorem expression_succ (hn : 8 * x.length + 2 ≤ n + 1) :
    Reads last (expression? (σ := σ) (n + 1)) x (Maybe Expression x) Deep := by
  rw [expression?]
  refine .seq (ih.atom (by omega)) ?_
  intro r y ha
  rcases r with _ | a
  · exact .pure ha
  · have hl := Atom.length_lt ha
    refine .seq (ih.climb (by omega)) ?_
    intro e z hclimb
    rcases hclimb with ⟨ops, hc, hg, -, -⟩
    exact .pure (.chain ha hc hg)

theorem climb_succ {left : Expr} {least : Nat} (hn : 8 * x.length + 1 ≤ n + 1) :
    Reads last (Grammar.climb (σ := σ) (n + 1) left least) x (Climbed last least left x) Deep := by
  rw [Grammar.climb]
  refine .bind (.nextKind ?_)
  intro t ht
  cases hp : t.kind.precedence? with
  | none => exact .pure (.stop ht fun p hp' => by cases hp.symm.trans hp')
  | some rank =>
    by_cases hlt : rank < least
    · simp only [if_pos hlt]
      exact .pure (.stop ht fun p hp' => by cases hp.symm.trans hp'; exact hlt)
    simp only [if_neg hlt]
    have hle := Nat.le_of_not_lt hlt
    obtain ⟨x, rfl⟩ := ht.cons fun he => by simp [he, Kind.precedence?] at hp
    simp only [List.length_cons] at hn
    refine .bind (.take (.seq (ih.atom (by omega)) ?_))
    intro r y hr
    refine .bind (.require (fun a ha => ?_) fun _ _ _ => .unexpected)
    subst ha
    have hl := Atom.length_lt hr
    refine .seq (ih.absorb (Kind.precedence_le hp) (by omega)) ?_
    intro r z habsorb
    rcases habsorb with ⟨tight, hc, hg, htight, hstop⟩
    have hl' := hc.length_le
    unfold combine
    cases hop : BinaryOp.ofKind? t.kind with
    | none => exact .bind (.throw .unsupported)
    | some op =>
      obtain rfl : rank = op.precedence := Option.some.inj (hp.symm.trans (BinaryOp.precedence_of_ofKind? hop))
      refine .bind (.pure (.mono (ih.climb (by omega)) ?_ fun _ _ => id))
      intro e u hclimb
      rcases hclimb with ⟨ops, hc', hg', hle', hstop'⟩
      refine ⟨(op, a) :: (tight ++ ops), .cons hop hr (hc.append hc'), hg.extend htight hg' ?_, ?_, hstop'⟩
      · intro o ho
        obtain ⟨v, hv, hvp⟩ : ∃ v, Next last z v ∧ _ := hc'.next ho
        exact (fitsLeft_iff_not_fitsRight op.precedence_le).mpr (hstop v hv _ hvp)
      · intro o ho
        simp only [List.mem_cons, List.mem_append] at ho
        rcases ho with rfl | ho | ho
        · exact hle
        · exact Nat.le_trans hle (htight o ho).le
        · exact hle' o ho

/-- One climb takes every operator that fits; `absorb` finds none of them after it. -/
theorem absorb_climb {right : Expr} {t : Token} {rank least next : Nat} (hr : rank ≤ 8) (hn : 8 * x.length + 1 ≤ n)
    (hfits : ∀ p, fitsRight rank p ↔ least ≤ p) (ht : Next last x t) (hp : t.kind.precedence? = some next)
    (hnext : fitsRight rank next) :
    Reads last (Grammar.climb n right least >>= fun r => Grammar.absorb n r rank : Reading σ Expr) x
      (Absorbed last rank right x) Deep := by
  refine .seq (ih.climb hn) ?_
  intro e y hclimb
  obtain ⟨_, _, htaken⟩ := hclimb.takes ht hp ((hfits next).mp hnext)
  have hl := htaken.length_lt
  rcases hclimb with ⟨ops, hc, hg, hle, hstop⟩
  refine .mono (ih.absorb hr (by omega)) ?_ fun _ _ => id
  intro e' z habsorb
  rcases habsorb with ⟨ops', hc', hg', hfit, hstop'⟩
  cases ops' with
  | nil =>
    cases hc'
    cases hg'.unique .operand
    exact ⟨ops, hc, hg, fun o ho => (hfits _).mpr (hle o ho), hstop'⟩
  | cons o ops' =>
    obtain ⟨u, hu, hup⟩ : ∃ u, Next last y u ∧ _ := hc'.next (o := o) rfl
    exact absurd ((hfits _).mp (hfit o (List.mem_cons_self ..))) (Nat.not_le_of_lt (hstop u hu _ hup))

theorem absorb_succ {right : Expr} {rank : Nat} (hr : rank ≤ 8) (hn : 8 * x.length + 2 ≤ n + 1) :
    Reads last (Grammar.absorb (σ := σ) (n + 1) right rank) x (Absorbed last rank right x) Deep := by
  rw [Grammar.absorb]
  refine .bind (.nextKind ?_)
  intro t ht
  cases hp : t.kind.precedence? with
  | none => exact .pure (.stop ht fun p hp' => by cases hp.symm.trans hp')
  | some next =>
    have hle := Kind.precedence_le hp
    have hright := Kind.groupsRight_iff t.kind
    by_cases hlt : rank < next
    · simp only [if_pos hlt]
      exact ih.absorb_climb hr (by omega) (fun p => by unfold fitsRight; omega) ht hp (.inl hlt)
    simp only [if_neg hlt]
    by_cases he : next = rank ∧ t.kind.groupsRight = true
    · simp only [if_pos he]
      have h8 : next = 8 := Option.some.inj (hp.symm.trans (hright.mp he.2))
      exact ih.absorb_climb hr (by omega) (fun p => by unfold fitsRight; omega) ht hp (.inr (by omega))
    · simp only [if_neg he]
      refine .pure (.stop ht ?_)
      intro p hp'
      cases hp.symm.trans hp'
      intro hfit
      rcases hfit with h | ⟨h, h8⟩
      · exact hlt h
      · exact he ⟨h.symm, hright.mpr (by rw [hp, ← h, h8])⟩

theorem atom_succ (hn : 8 * x.length + 1 ≤ n + 1) : Reads last (atom? (σ := σ) (n + 1)) x (Maybe Atom x) Deep := by
  rw [atom?]
  refine .bind (.nextKind ?_)
  intro t ht
  by_cases hk : t.kind = .openParen
  · rw [if_pos hk]
    obtain ⟨x, rfl⟩ := ht.cons (by simp [hk])
    simp only [List.length_cons] at hn
    refine .bind (.take (.seq (ih.expression (by omega)) ?_))
    intro r y hr
    refine .bind (.require (fun e he => ?_) fun _ _ _ => .unexpected)
    subst he
    exact .bind (.expect (by decide) (fun c z hz hc => .pure (.inner hk (hz ▸ hr) hc)) fun _ _ _ => .unexpected)
  rw [if_neg hk]
  cases hop : UnaryOp.ofKind? t.kind with
  | some op =>
    obtain ⟨x, rfl⟩ := ht.cons fun he => by simp [he, UnaryOp.ofKind?] at hop
    simp only [List.length_cons] at hn
    refine .bind (.take (.seq (ih.atom (by omega)) ?_))
    intro r y hr
    refine .bind (.require (fun e he => ?_) fun _ _ _ => .unexpected)
    subst he
    exact .pure (.unary hop hr)
  | none =>
    refine .bind (.name? (fun t y hx hn' => ?_) (fun _ _ _ _ _ => .unexpected) fun u hu hk => ?_)
    · subst hx
      simp only [List.length_cons] at hn
      exact .seq (ih.reference hn' (by omega)) fun e z he => .pure he
    · refine .bind (.literal? (fun t y v hx hv => .pure ?_) (fun t f ht hf => ?_) fun t ht hno => .pure rfl)
      · subst hx
        exact .literal hv
      · obtain ⟨form, rfl⟩ := literalOf_error hf
        exact .malformed

theorem reference_succ {t : Token} (ht : Named t) (hn : 8 * x.length + 1 ≤ n + 1) :
    Reads last (Grammar.reference (σ := σ) (n + 1) t.text) x (Atom (t :: x)) Deep := by
  rw [Grammar.reference]
  refine .bind (.takeIf (by decide) (fun o y hx ho => ?_) fun u hu hk => ?_)
  · subst hx
    simp only [List.length_cons] at hn
    exact .seq (ih.arguments (by omega)) fun es z hes => .pure (.call ht ho hes)
  refine .bind (.takeIf (by decide) (fun o y hx ho => ?_) fun u hu hk => ?_)
  · subst hx
    simp only [List.length_cons] at hn
    refine .seq (ih.expression (by omega)) fun r y hr => .bind (.require (fun e he => ?_) fun _ _ _ => .unexpected)
    subst he
    exact .bind (.expect (by decide) (fun c z hz hc => .pure (.element ht ho (hz ▸ hr) hc)) fun _ _ _ => .unexpected)
  · exact .pure (.var ht)

theorem arguments_succ (hn : 8 * x.length + 3 ≤ n + 1) :
    Reads last (Grammar.arguments (σ := σ) (n + 1)) x (Arguments x) Deep := by
  rw [Grammar.arguments]
  refine .seq (ih.expression (by omega)) fun r y hr => .bind (.require (fun e he => ?_) fun _ _ _ => .unexpected)
  subst he
  have hl := Expression.length_lt hr
  refine .bind (.takeIf (by decide) (fun c z hz hc => .pure (.one (hz ▸ hr) hc)) ?_)
  intro u hu hk
  refine .bind (.expect (by decide) (fun c z hz hc => ?_) fun _ _ _ => .unexpected)
  subst hz
  simp only [List.length_cons] at hl
  exact .seq (ih.arguments (by omega)) fun es v hes => .pure (.more hr hc hes)

end ExpressionReaders

theorem expressionReaders (n : Nat) : ExpressionReaders σ last n := by
  induction n with
  | zero => constructor <;> intros <;> omega
  | succ n ih =>
    exact ⟨ih.expression_succ, ih.climb_succ, ih.absorb_succ, ih.atom_succ, ih.reference_succ, ih.arguments_succ⟩

/-! ## Statements without blocks -/

/-- A statement, if one was read. -/
def IfAny (R : List Token → α → List Token → Prop) (x : List Token) (r : Option α) (y : List Token) : Prop :=
  ∀ a, r = some a → R x a y

section Plain

variable {n : Nat} {x : List Token}

theorem declaration_reads {l : Token} (hl : l.kind = .letWord) (hn : 8 * x.length + 2 ≤ n) :
    Reads last (declaration? (σ := σ) n) x (IfAny Statement (l :: x)) Deep := by
  refine .bind (.name (fun t y hx ht => ?_) (fun _ _ _ _ _ => .unexpected) fun _ _ _ => .unexpected)
  subst hx
  refine .bind (.expect (by decide) (fun q y hy hq => ?_) fun _ _ _ => .unexpected)
  subst hy
  simp only [List.length_cons] at hn
  refine .bind (.takeIf (by decide) (fun o y hy ho => ?_) fun o ho hk => ?_)
  · subst hy
    simp only [List.length_cons] at hn
    refine .seq ((expressionReaders n).required (by omega)) ?_
    intro e z he
    refine .bind (.expect (by decide) (fun c u hu hc => .pure ?_) fun _ _ _ => .unexpected)
    subst hu
    intro _ ha
    cases ha
    exact .declareArray hl ht hq ho he hc
  · refine .seq ((expressionReaders n).expression (by omega)) fun r z hr => .pure ?_
    cases r with
    | none => exact nofun
    | some e =>
      intro _ ha
      cases ha
      exact .declare hl ht hq hr

theorem assignment_reads (hn : 8 * x.length + 2 ≤ n) :
    Reads last (assignment? (σ := σ) n) x (IfAny Statement x) Deep := by
  refine .bind (.name (fun t y hx ht => ?_) (fun _ _ _ _ _ => .unexpected) fun _ _ _ => .unexpected)
  subst hx
  refine .bind (.expect (by decide) (fun q y hy hq => ?_) fun _ _ _ => .unexpected)
  subst hy
  simp only [List.length_cons] at hn
  refine .seq ((expressionReaders n).expression (by omega)) fun r z hr => .pure ?_
  cases r with
  | none => exact nofun
  | some e =>
    intro _ ha
    cases ha
    exact .assign ht hq hr

theorem elementAssignment_reads (hn : 8 * x.length + 2 ≤ n) :
    Reads last (elementAssignment (σ := σ) n) x
      (fun s y => Statement x s y ∧ ∃ array index value, s = .assignElement array index value) Deep := by
  refine .bind (.name (fun t y hx ht => ?_) (fun _ _ _ _ _ => .unexpected) fun _ _ _ => .unexpected)
  subst hx
  refine .bind (.expect (by decide) (fun o y hy ho => ?_) fun _ _ _ => .unexpected)
  subst hy
  simp only [List.length_cons] at hn
  refine .seq ((expressionReaders n).required (by omega)) ?_
  intro i z hi
  have hl := hi.length_lt
  refine .bind (.expect (by decide) (fun c u hu hc => ?_) fun _ _ _ => .unexpected)
  subst hu
  refine .bind (.expect (by decide) (fun q v hv hq => ?_) fun _ _ _ => .unexpected)
  subst hv
  simp only [List.length_cons] at hl
  exact .seq ((expressionReaders n).required (by omega)) fun e w he =>
    .pure ⟨.assignElement ht ho hi hc hq he, _, _, _, rfl⟩

theorem returned_reads {r : Token} (hr : r.kind = .returnWord) (hn : 8 * x.length + 2 ≤ n) :
    Reads last (returned (σ := σ) n) x (Statement (r :: x)) Deep := by
  refine .bind (.nextKind ?_)
  intro t ht
  by_cases hs : t.kind.endsStatement = true
  · rw [if_pos hs]
    exact .pure (.returns hr)
  · rw [if_neg hs]
    exact .seq ((expressionReaders n).required (by omega)) fun e y he => .pure (.returnsValue hr he)

theorem parameters_reads (hn : x.length + 1 ≤ n) : Reads last (parameters (σ := σ) n) x (Parameters x) Deep := by
  induction n generalizing x with
  | zero => omega
  | succ n ih =>
    rw [parameters]
    refine .bind (.name (fun t y hx ht => ?_) (fun _ _ _ _ _ => .unexpected) fun _ _ _ => .unexpected)
    subst hx
    refine .bind (.takeIf (by decide) (fun c z hz hc => .pure (hz ▸ .one ht hc)) ?_)
    intro _ _ _
    refine .bind (.expect (by decide) (fun c z hz hc => ?_) fun _ _ _ => .unexpected)
    subst hz
    simp only [List.length_cons] at hn
    exact .seq (ih (by omega)) fun ps u hps => .pure (.more ht hc hps)

theorem bare_reads (hn : 8 * x.length + 2 ≤ n) :
    Reads last ((return (← expression? n).map .expression) : Reading σ (Option Stmt)) x (IfAny Statement x) Deep := by
  refine .seq ((expressionReaders n).expression hn) fun r y hr => .pure ?_
  cases r with
  | none => exact nofun
  | some e =>
    intro _ ha
    cases ha
    exact .expression hr

theorem plainStatement_reads (hn : 8 * x.length + 2 ≤ n) :
    Reads last (plainStatement? (σ := σ) n) x (IfAny Statement x) Deep := by
  refine .bind (.nextKind ?_)
  intro t ht
  by_cases hk : t.kind = .name
  · rw [if_pos hk]
    obtain ⟨x, rfl⟩ := ht.cons (by simp [hk])
    refine .bind (.peekKind (p := [t]) ?_)
    intro u hu
    by_cases hq : u.kind = .assign
    · rw [if_pos hq]
      exact assignment_reads hn
    · rw [if_neg hq]
      by_cases ho : u.kind = .openBracket
      · rw [if_pos ho]
        obtain ⟨x, rfl⟩ := hu.cons (by simp [ho])
        simp only [List.length_cons] at hn
        refine .bind (.assignsElement (p := [t, u]) (.inl (by omega)) ?_)
        intro r hr
        by_cases he : r = true
        · rw [if_pos he]
          exact .seq (elementAssignment_reads (by simp only [List.length_append, List.length_cons, List.length_nil]; omega))
            fun s y hs => .pure fun _ ha => by cases ha; exact hs.1
        · rw [if_neg he]
          exact bare_reads (by simp only [List.length_append, List.length_cons, List.length_nil]; omega)
      · rw [if_neg ho]
        exact bare_reads hn
  · rw [if_neg hk]
    exact bare_reads hn

end Plain

/-! ## Statements with blocks -/

/-- The judgements of the readers of statements at depth `n`. -/
structure StatementReaders (σ : Type) [TokenStream σ] (last : Except Fault Token) (n : Nat) : Prop where
  scope {x : List Token} : 8 * x.length + 4 ≤ n →
    Reads last (scope (σ := σ) n) x (fun b y => Statements x b y ∧ ScopeEnds last y) Deep
  block {x : List Token} : 8 * x.length + 1 ≤ n → Reads last (block (σ := σ) n) x (Block x) Deep
  statement {x : List Token} : 8 * x.length + 3 ≤ n → Reads last (statement? (σ := σ) n) x (IfAny Statement x) Deep
  conditional {i : Token} {x : List Token} : i.kind = .ifWord → 8 * x.length + 3 ≤ n →
    Reads last (conditional (σ := σ) n) x (Statement (i :: x)) Deep

namespace StatementReaders

variable {n : Nat} {x : List Token} (ih : StatementReaders σ last n)

include ih

theorem scope_succ (hn : 8 * x.length + 4 ≤ n + 1) :
    Reads last (Grammar.scope (σ := σ) (n + 1)) x (fun b y => Statements x b y ∧ ScopeEnds last y) Deep := by
  rw [Grammar.scope]
  refine .bind (.nextKind ?_)
  intro t ht
  by_cases hk : t.kind = .endOfText ∨ t.kind.closesScope = true
  · rw [if_pos hk]
    exact .pure ⟨.nil, fun u hu => hu.unique ht ▸ hk.imp_right beq_iff_eq.mp⟩
  rw [if_neg hk]
  have hne : t.kind ≠ .endOfText := fun h => hk (.inl h)
  by_cases hs : t.kind.isSeparator = true
  · rw [if_pos hs]
    obtain ⟨x, rfl⟩ := ht.cons hne
    simp only [List.length_cons] at hn
    exact .bind (.take (.mono (ih.scope (by omega)) (fun b y hb => ⟨.skip hs hb.1, hb.2⟩) fun _ _ => id))
  rw [if_neg hs]
  refine .seq (ih.statement (by omega)) ?_
  intro r y hr
  split
  · exact .bind (.next fun _ _ => .throw .noStatement)
  · rename_i s
    have hs : Statement x s y := hr s rfl
    have hl := hs.length_lt
    refine .bind (.nextKind ?_)
    intro u hu
    by_cases he : u.kind.endsStatement = true
    · rw [if_pos he]
      exact .seq (ih.scope (by omega)) fun b z hb => .pure ⟨.cons hs (.of_next hu ‹_›) hb.1, hb.2⟩
    · rw [if_neg he]
      exact .fail fun _ _ => .unexpected

theorem block_succ (hn : 8 * x.length + 1 ≤ n + 1) : Reads last (Grammar.block (σ := σ) (n + 1)) x (Block x) Deep := by
  rw [Grammar.block]
  refine .bind (.expect (by decide) (fun o y hy ho => ?_) fun _ _ _ => .unexpected)
  subst hy
  simp only [List.length_cons] at hn
  refine .seq (ih.scope (by omega)) ?_
  intro b z hb
  exact .bind (.expect (by decide) (fun c u hu hc => .pure (.braces ho (hu ▸ hb.1) hc)) fun _ _ _ => .unexpected)

theorem conditional_succ {i : Token} (hi : i.kind = .ifWord) (hn : 8 * x.length + 3 ≤ n + 1) :
    Reads last (Grammar.conditional (σ := σ) (n + 1)) x (Statement (i :: x)) Deep := by
  rw [Grammar.conditional]
  refine .seq ((expressionReaders n).required (by omega)) ?_
  intro e y he
  have hl := he.length_lt
  refine .seq (ih.block (by omega)) ?_
  intro b z hb
  have hl' := hb.length_lt
  refine .bind (.pastLayout (g := []) (x := z) (.inl (by omega)) (fun _ h => by cases h) ?_)
  intro gap u hz hg _
  rw [List.nil_append] at hz ⊢
  subst hz
  refine .bind (.peekKind ?_)
  intro k hk
  by_cases hkind : k.kind = .elseWord
  · rw [if_pos hkind]
    obtain ⟨u, rfl⟩ := hk.cons (by simp [hkind])
    simp only [List.length_append, List.length_cons] at hl'
    exact .bind (.skipPast (.seq (ih.block (by omega)) fun b' v hb' => .pure (.ifElse hi he hb hg hkind hb')))
  · rw [if_neg hkind]
    exact .pure (.ifThen hi he hb)

theorem statement_succ (hn : 8 * x.length + 3 ≤ n + 1) :
    Reads last (statement? (σ := σ) (n + 1)) x (IfAny Statement x) Deep := by
  rw [statement?]
  refine .bind (.nextKind ?_)
  intro t ht
  split
  · rename_i hk
    obtain ⟨x, rfl⟩ := ht.cons (by simp [hk])
    simp only [List.length_cons] at hn
    exact .bind (.take (declaration_reads hk (by omega)))
  · rename_i hk
    obtain ⟨x, rfl⟩ := ht.cons (by simp [hk])
    simp only [List.length_cons] at hn
    exact .bind (.take (.seq (ih.conditional hk (by omega)) fun s y hs => .pure fun _ ha => Option.some.inj ha ▸ hs))
  · rename_i hk
    obtain ⟨x, rfl⟩ := ht.cons (by simp [hk])
    simp only [List.length_cons] at hn
    refine .bind (.take (.seq ((expressionReaders n).required (by omega)) ?_))
    intro e y he
    have hl := he.length_lt
    refine .seq (ih.block (by omega)) fun b z hb => .pure ?_
    intro _ ha
    cases ha
    exact .whileLoop hk he hb
  · rename_i hk
    obtain ⟨x, rfl⟩ := ht.cons (by simp [hk])
    refine .bind (.take (.bind (.name (fun f y hx hf => ?_) (fun _ _ _ _ _ => .unexpected) fun _ _ _ => .unexpected)))
    subst hx
    refine .bind (.expect (by decide) (fun o z hz ho => ?_) fun _ _ _ => .unexpected)
    subst hz
    simp only [List.length_cons] at hn
    refine .seq (parameters_reads (by omega)) ?_
    intro ps u hps
    have hl := hps.length_lt
    refine .seq (ih.block (by omega)) fun b v hb => .pure ?_
    intro _ ha
    cases ha
    exact .define hk hf ho hps hb
  · rename_i hk
    obtain ⟨x, rfl⟩ := ht.cons (by simp [hk])
    simp only [List.length_cons] at hn
    exact .bind (.take (.seq (returned_reads hk (by omega)) fun s y hs => .pure fun _ ha => Option.some.inj ha ▸ hs))
  · refine .seq (ih.block (by omega)) fun b y hb => .pure ?_
    intro _ ha
    cases ha
    exact .block hb
  · exact plainStatement_reads (by omega)

end StatementReaders

theorem statementReaders (n : Nat) : StatementReaders σ last n := by
  induction n with
  | zero => constructor <;> intros <;> omega
  | succ n ih => exact ⟨ih.scope_succ, ih.block_succ, ih.statement_succ, ih.conditional_succ⟩

/-! ## Programs -/

theorem wholeScope_reads {n : Nat} {x : List Token} (hn : 8 * x.length + 4 ≤ n) :
    Reads last (wholeScope (σ := σ) n) x (fun b _ => Program x b ∧ ∃ e, last = .ok e) Deep := by
  refine .seq ((statementReaders n).scope hn) fun b y hb => .bind (.next ?_)
  intro t ht
  by_cases hk : t.kind = .endOfText
  · rw [if_pos hk]
    cases ht with
    | token hne => exact absurd hk hne
    | final hl => exact .pure ⟨hb.1, t, hl⟩
  · rw [if_neg hk]
    exact .throw .trailing

end ScriptLang.Grammar
