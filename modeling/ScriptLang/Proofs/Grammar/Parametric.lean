/-
  ScriptLang.Proofs.Grammar.Parametric — what readers do, because their steps do it.

  Readers reach their source through a few steps and through each other. So a relation
  between readings of two sources that holds of the steps, and of readings in sequence, holds
  of each reader and itself. The reader of the first source may be the deeper one, if the
  relation allows that the other one gives up.
  - `Near.readers`: the readers that look no further than the next token need no other steps.
  - `Uniform.wholeScope`: the reader of programs.
-/

import ScriptLang.Proofs.Grammar.Steps

namespace ScriptLang.Grammar

open Lookahead
open Token (Kind)

variable {σ τ : Type} [TokenStream σ] [TokenStream τ]

/-- The deeper of two readers goes one step down with the other. -/
theorem exists_deeper {m n : Nat} (hn : n + 1 ≤ m) : ∃ k, m = k + 1 ∧ n ≤ k := ⟨m - 1, by omega, by omega⟩

/-- A relation that holds of the steps at the next token, and of readings in sequence. -/
structure Near (P : {α : Type} → Reading σ α → Reading τ α → Prop) : Prop where
  pure {α : Type} (a : α) : P (pure a) (pure a)
  bind {α β : Type} {m : Reading σ α} {m' : Reading τ α} {g : α → Reading σ β} {g' : α → Reading τ β} :
    P m m' → (∀ a, P (g a) (g' a)) → P (m >>= g) (m' >>= g')
  shallow {α : Type} (m : Reading σ α) : P m (throw .tooDeep)
  unsupported {α : Type} (t : Token) : P (α := α) (throw (.unsupportedOperator t)) (throw (.unsupportedOperator t))
  next : P (peek 0) (peek 0)
  take : P take take
  fail {α : Type} (w : Expectation) : P (α := α) (fail w) (fail w)
  name? : P name? name?
  literal? : P literal? literal?

namespace Near

variable {P : {α : Type} → Reading σ α → Reading τ α → Prop} (h : Near P)

include h

theorem nextKind : P (peekKind 0) (peekKind 0) := h.bind h.next fun t => h.pure t.kind

theorem require {α : Type} (w : Expectation) (o : Option α) : P (require w o) (require w o) := by
  cases o with
  | none => exact h.fail w
  | some a => exact h.pure a

theorem takeIf (k : Kind) : P (takeIf k) (takeIf k) := by
  refine h.bind h.nextKind ?_
  intro kind
  by_cases hk : kind = k
  · simp only [if_pos hk]
    exact h.bind h.take fun _ => h.pure true
  · simp only [if_neg hk]
    exact h.pure false

theorem expect (k : Kind) (w : Expectation) : P (expect k w) (expect k w) := by
  refine h.bind h.nextKind ?_
  intro kind
  by_cases hk : kind = k
  · simp only [if_pos hk]
    exact h.take
  · simp only [if_neg hk]
    exact h.fail w

theorem name (w : Expectation) : P (name w) (name w) := h.bind h.name? (h.require w)

theorem combine (operator : Token) (left right : Expr) : P (combine operator left right) (combine operator left right) := by
  unfold Grammar.combine
  cases BinaryOp.ofKind? operator.kind with
  | none => exact h.unsupported operator
  | some op => exact h.pure _

end Near

/-! ## Expressions -/

/-- The relation holds of the readers of expressions at depths `m` and `n`. -/
structure NearReaders (P : {α : Type} → Reading σ α → Reading τ α → Prop) (m n : Nat) : Prop where
  expression : P (expression? m) (expression? n)
  climb (left : Expr) (least : Nat) : P (climb m left least) (climb n left least)
  absorb (right : Expr) (rank : Nat) : P (absorb m right rank) (absorb n right rank)
  atom : P (atom? m) (atom? n)
  reference (found : String) : P (reference m found) (reference n found)
  arguments : P (arguments m) (arguments n)

namespace NearReaders

variable {P : {α : Type} → Reading σ α → Reading τ α → Prop} {m n : Nat} (ih : NearReaders P m n) (h : Near P)

include ih h

theorem required (w : Expectation) : P (Grammar.expression m w) (Grammar.expression n w) :=
  h.bind ih.expression (h.require w)

theorem expression_succ : P (expression? (m + 1)) (expression? (n + 1)) := by
  simp only [expression?]
  refine h.bind ih.atom ?_
  intro a
  cases a with
  | none => exact h.pure none
  | some left => exact h.bind (ih.climb left 0) fun e => h.pure (some e)

theorem climb_succ (left : Expr) (least : Nat) :
    P (Grammar.climb (m + 1) left least) (Grammar.climb (n + 1) left least) := by
  simp only [Grammar.climb]
  refine h.bind h.nextKind ?_
  intro kind
  cases kind.precedence? with
  | none => exact h.pure left
  | some rank =>
    by_cases hlt : rank < least
    · simp only [if_pos hlt]
      exact h.pure left
    · simp only [if_neg hlt]
      refine h.bind h.take fun operator => h.bind ih.atom fun a => ?_
      refine h.bind (h.require _ a) fun first => h.bind (ih.absorb first rank) fun right => ?_
      exact h.bind (h.combine operator left right) fun whole => ih.climb whole least

theorem absorb_succ (right : Expr) (rank : Nat) :
    P (Grammar.absorb (m + 1) right rank) (Grammar.absorb (n + 1) right rank) := by
  simp only [Grammar.absorb]
  refine h.bind h.nextKind ?_
  intro kind
  cases kind.precedence? with
  | none => exact h.pure right
  | some next =>
    by_cases hlt : rank < next
    · simp only [if_pos hlt]
      exact h.bind (ih.climb right (rank + 1)) fun right => ih.absorb right rank
    simp only [if_neg hlt]
    by_cases he : next = rank ∧ kind.groupsRight = true
    · simp only [if_pos he]
      exact h.bind (ih.climb right rank) fun right => ih.absorb right rank
    · simp only [if_neg he]
      exact h.pure right

theorem atom_succ : P (atom? (m + 1)) (atom? (n + 1)) := by
  simp only [atom?]
  refine h.bind h.nextKind ?_
  intro kind
  by_cases hk : kind = .openParen
  · simp only [if_pos hk]
    refine h.bind h.take fun _ => h.bind ih.expression fun e => h.bind (h.require _ e) fun inside => ?_
    exact h.bind (h.expect ..) fun _ => h.pure (some inside)
  simp only [if_neg hk]
  cases UnaryOp.ofKind? kind with
  | some op =>
    refine h.bind h.take fun operator => h.bind ih.atom fun a => ?_
    exact h.bind (h.require _ a) fun operand => h.pure _
  | none =>
    refine h.bind h.name? fun found => ?_
    cases found with
    | some found => exact h.bind (ih.reference found) fun e => h.pure (some e)
    | none => exact h.bind h.literal? fun v => h.pure _

theorem reference_succ (found : String) : P (Grammar.reference (m + 1) found) (Grammar.reference (n + 1) found) := by
  simp only [Grammar.reference]
  refine h.bind (h.takeIf .openParen) ?_
  intro call
  cases call with
  | true => exact h.bind ih.arguments fun es => h.pure _
  | false =>
    refine h.bind (h.takeIf .openBracket) ?_
    intro element
    cases element with
    | true =>
      refine h.bind ih.expression fun e => h.bind (h.require _ e) fun index => ?_
      exact h.bind (h.expect ..) fun _ => h.pure _
    | false => exact h.pure _

theorem arguments_succ : P (Grammar.arguments (m + 1)) (Grammar.arguments (n + 1)) := by
  simp only [Grammar.arguments]
  refine h.bind ih.expression fun e => h.bind (h.require _ e) fun argument => h.bind (h.takeIf .closeParen) ?_
  intro closed
  cases closed with
  | true => exact h.pure [argument]
  | false => exact h.bind (h.expect ..) fun _ => h.bind ih.arguments fun es => h.pure (argument :: es)

end NearReaders

section

variable {P : {α : Type} → Reading σ α → Reading τ α → Prop} {m n : Nat}

theorem Near.readers (h : Near P) (hn : n ≤ m) : NearReaders P m n := by
  induction n generalizing m with
  | zero => constructor <;> intros <;> exact h.shallow _
  | succ n ih =>
    obtain ⟨m, rfl, hm⟩ := exists_deeper hn
    have ih := ih hm
    exact ⟨ih.expression_succ h, ih.climb_succ h, ih.absorb_succ h, ih.atom_succ h, ih.reference_succ h,
      ih.arguments_succ h⟩

/-! ## Statements without blocks -/

namespace Near

variable (h : Near P) (hn : n ≤ m)

include h hn

theorem bare : P ((return (← expression? m).map Stmt.expression) : Reading σ (Option Stmt))
    ((return (← expression? n).map Stmt.expression) : Reading τ (Option Stmt)) :=
  h.bind (h.readers hn).expression fun _ => h.pure _

theorem declaration : P (declaration? m) (declaration? n) := by
  refine h.bind (h.name _) fun target => h.bind (h.expect ..) fun _ => h.bind (h.takeIf .openBracket) ?_
  intro array
  cases array with
  | true =>
    refine h.bind ((h.readers hn).required h _) fun length => h.bind (h.expect ..) fun _ => ?_
    exact h.pure _
  | false => exact h.bind (h.readers hn).expression fun e => h.pure _

theorem assignment : P (assignment? m) (assignment? n) := by
  refine h.bind (h.name _) fun target => h.bind (h.expect ..) fun _ => ?_
  exact h.bind (h.readers hn).expression fun e => h.pure _

theorem elementAssignment : P (elementAssignment m) (elementAssignment n) := by
  refine h.bind (h.name _) fun array => h.bind (h.expect ..) fun _ => ?_
  refine h.bind ((h.readers hn).required h _) fun index => h.bind (h.expect ..) fun _ => h.bind (h.expect ..) fun _ => ?_
  exact h.bind ((h.readers hn).required h _) fun value => h.pure _

theorem returned : P (returned m) (returned n) := by
  refine h.bind h.nextKind ?_
  intro kind
  by_cases hk : kind.endsStatement = true
  · simp only [if_pos hk]
    exact h.pure _
  · simp only [if_neg hk]
    exact h.bind ((h.readers hn).required h _) fun e => h.pure _

omit hn in
theorem parameters (hn : n ≤ m) : P (parameters m) (parameters n) := by
  induction n generalizing m with
  | zero => exact h.shallow _
  | succ n ih =>
    obtain ⟨m, rfl, hm⟩ := exists_deeper hn
    simp only [Grammar.parameters]
    refine h.bind (h.name _) fun parameter => h.bind (h.takeIf .closeParen) ?_
    intro closed
    cases closed with
    | true => exact h.pure [parameter]
    | false =>
      refine h.bind (h.expect ..) fun _ => h.bind (ih hm) fun ps => ?_
      exact h.pure (parameter :: ps)

end Near

end

/-! ## Readers that look further -/

/-- A fault that a reader finds, and no source gives. -/
def Raised : Fault → Prop
  | .tooDeep | .lexical _ | .encoding _ => False
  | _ => True

/-- A relation that holds of all steps, and of readings in sequence. -/
structure Uniform (P : {α : Type} → Reading σ α → Reading τ α → Prop) : Prop where
  pure {α : Type} (a : α) : P (pure a) (pure a)
  bind {α β : Type} {m : Reading σ α} {m' : Reading τ α} {g : α → Reading σ β} {g' : α → Reading τ β} :
    P m m' → (∀ a, P (g a) (g' a)) → P (m >>= g) (m' >>= g')
  shallow {α : Type} (m : Reading σ α) : P m (throw .tooDeep)
  throw {α : Type} {f : Fault} : Raised f → P (α := α) (throw f) (throw f)
  peek (n : Nat) : P (peek n) (peek n)
  take : P take take

namespace Uniform

variable {P : {α : Type} → Reading σ α → Reading τ α → Prop} {m n : Nat} (h : Uniform P)

include h

theorem peekKind (n : Nat) : P (peekKind n) (peekKind n) := h.bind (h.peek n) fun t => h.pure t.kind

theorem name? : P name? name? := by
  refine h.bind (h.peekKind 0) ?_
  intro kind
  by_cases hk : kind = .name
  · simp only [if_pos hk]
    refine h.bind h.take fun t => ?_
    by_cases ht : isProperName t.text = true
    · simp only [if_pos ht]
      exact h.pure (some t.text)
    · simp only [if_neg ht]
      exact h.throw trivial
  · simp only [if_neg hk]
    exact h.pure none

theorem literal? : P literal? literal? := by
  refine h.bind (h.peek 0) ?_
  intro t
  cases hl : literalOf t with
  | error f =>
    obtain ⟨form, rfl⟩ := literalOf_error hl
    exact h.throw trivial
  | ok v =>
    cases v with
    | none => exact h.pure none
    | some v => exact h.bind h.take fun _ => h.pure (some v)

theorem near : Near P where
  pure := h.pure
  bind := h.bind
  shallow := h.shallow
  unsupported _ := h.throw trivial
  next := h.peek 0
  take := h.take
  fail _ := h.bind (h.peek 0) fun _ => h.throw trivial
  name? := h.name?
  literal? := h.literal?

theorem skip (n : Nat) : P (skip n) (skip n) := by
  induction n with
  | zero => exact h.pure ()
  | succ n ih => exact h.bind h.take fun _ => ih

theorem pastLayout (hn : n ≤ m) (ahead : Nat) : P (pastLayout m ahead) (pastLayout n ahead) := by
  induction n generalizing m ahead with
  | zero => exact h.shallow _
  | succ n ih =>
    obtain ⟨m, rfl, hm⟩ := exists_deeper hn
    simp only [Grammar.pastLayout]
    refine h.bind (h.peekKind ahead) ?_
    intro kind
    by_cases hk : kind = .newline ∨ kind = .comment
    · simp only [if_pos hk]
      exact ih hm (ahead + 1)
    · simp only [if_neg hk]
      exact h.pure ahead

theorem assignsElement (hn : n ≤ m) (ahead depth : Nat) :
    P (assignsElement m ahead depth) (assignsElement n ahead depth) := by
  induction n generalizing m ahead depth with
  | zero => exact h.shallow _
  | succ n ih =>
    obtain ⟨m, rfl, hm⟩ := exists_deeper hn
    have ih := @ih m hm (ahead + 1)
    cases depth with
    | zero => exact h.bind (h.peekKind ahead) fun kind => h.pure _
    | succ depth =>
      simp only [Grammar.assignsElement]
      refine h.bind (h.peekKind ahead) ?_
      intro kind
      cases kind
      case openBracket => exact ih (depth + 2)
      case closeBracket => exact ih depth
      case endOfText => exact h.pure false
      all_goals exact ih (depth + 1)

theorem plainStatement (hn : n ≤ m) : P (plainStatement? m) (plainStatement? n) := by
  refine h.bind (h.peekKind 0) ?_
  intro kind
  by_cases hk : kind = .name
  · simp only [if_pos hk]
    refine h.bind (h.peekKind 1) ?_
    intro second
    by_cases hq : second = .assign
    · simp only [if_pos hq]
      exact h.near.assignment hn
    simp only [if_neg hq]
    by_cases ho : second = .openBracket
    · simp only [if_pos ho]
      refine h.bind (h.assignsElement hn 2 1) ?_
      intro assigns
      cases assigns with
      | true => exact h.bind (h.near.elementAssignment hn) fun s => h.pure (some s)
      | false => exact h.near.bare hn
    · simp only [if_neg ho]
      exact h.near.bare hn
  · simp only [if_neg hk]
    exact h.near.bare hn

end Uniform

/-! ## Statements with blocks -/

/-- The relation holds of the readers of statements at depths `m` and `n`. -/
structure UniformReaders (P : {α : Type} → Reading σ α → Reading τ α → Prop) (m n : Nat) : Prop where
  scope : P (scope m) (scope n)
  block : P (block m) (block n)
  statement : P (statement? m) (statement? n)
  conditional : P (conditional m) (conditional n)

namespace UniformReaders

variable {P : {α : Type} → Reading σ α → Reading τ α → Prop} {m n : Nat} (ih : UniformReaders P m n) (h : Uniform P)

include ih h

theorem scope_succ : P (Grammar.scope (m + 1)) (Grammar.scope (n + 1)) := by
  simp only [Grammar.scope]
  refine h.bind (h.peekKind 0) ?_
  intro kind
  by_cases hk : kind = .endOfText ∨ kind.closesScope = true
  · simp only [if_pos hk]
    exact h.pure []
  simp only [if_neg hk]
  by_cases hs : kind.isSeparator = true
  · simp only [if_pos hs]
    exact h.bind h.take fun _ => ih.scope
  simp only [if_neg hs]
  refine h.bind ih.statement ?_
  intro found
  cases found with
  | none => exact h.bind (h.peek 0) fun _ => h.throw trivial
  | some found =>
    refine h.bind (h.peekKind 0) ?_
    intro after
    by_cases ha : after.endsStatement = true
    · simp only [if_pos ha]
      exact h.bind ih.scope fun b => h.pure (found :: b)
    · simp only [if_neg ha]
      exact h.near.fail _

theorem block_succ : P (Grammar.block (m + 1)) (Grammar.block (n + 1)) := by
  simp only [Grammar.block]
  refine h.bind (h.near.expect ..) fun _ => h.bind ih.scope fun body => ?_
  exact h.bind (h.near.expect ..) fun _ => h.pure body

theorem statement_succ (hn : n ≤ m) : P (statement? (m + 1)) (statement? (n + 1)) := by
  simp only [statement?]
  refine h.bind (h.peekKind 0) ?_
  intro kind
  cases kind
  case letWord => exact h.bind h.take fun _ => h.near.declaration hn
  case ifWord => exact h.bind h.take fun _ => h.bind ih.conditional fun s => h.pure (some s)
  case whileWord =>
    refine h.bind h.take fun _ => h.bind ((h.near.readers hn).required h.near _) fun condition => ?_
    exact h.bind ih.block fun b => h.pure _
  case defWord =>
    refine h.bind h.take fun _ => h.bind (h.near.name _) fun function => h.bind (h.near.expect ..) fun _ => ?_
    refine h.bind (h.near.parameters hn) fun names => h.bind ih.block fun b => ?_
    exact h.pure _
  case returnWord => exact h.bind h.take fun _ => h.bind (h.near.returned hn) fun s => h.pure (some s)
  case openBrace => exact h.bind ih.block fun b => h.pure _
  all_goals exact h.plainStatement hn

theorem conditional_succ (hn : n ≤ m) : P (Grammar.conditional (m + 1)) (Grammar.conditional (n + 1)) := by
  simp only [Grammar.conditional]
  refine h.bind ((h.near.readers hn).required h.near _) fun condition => h.bind ih.block fun body => ?_
  refine h.bind (h.pastLayout hn 0) fun ahead => h.bind (h.peekKind ahead) ?_
  intro kind
  by_cases hk : kind = .elseWord
  · simp only [if_pos hk]
    exact h.bind (h.skip _) fun _ => h.bind ih.block fun otherwise => h.pure _
  · simp only [if_neg hk]
    exact h.pure _

end UniformReaders

namespace Uniform

variable {P : {α : Type} → Reading σ α → Reading τ α → Prop} {m n : Nat}

theorem readers (h : Uniform P) (hn : n ≤ m) : UniformReaders P m n := by
  induction n generalizing m with
  | zero => constructor <;> exact h.shallow _
  | succ n ih =>
    obtain ⟨m, rfl, hm⟩ := exists_deeper hn
    have ih := ih hm
    exact ⟨ih.scope_succ h, ih.block_succ h, ih.statement_succ h hm, ih.conditional_succ h hm⟩

/-- The reader of programs, at a depth that is at least that of the other. -/
theorem wholeScope (h : Uniform P) (hn : n ≤ m) : P (wholeScope m) (wholeScope n) := by
  refine h.bind (h.readers hn).scope fun root => h.bind (h.peek 0) ?_
  intro next
  by_cases hk : next.kind = .endOfText
  · simp only [if_pos hk]
    exact h.pure root
  · simp only [if_neg hk]
    exact h.throw trivial

end Uniform

end ScriptLang.Grammar
