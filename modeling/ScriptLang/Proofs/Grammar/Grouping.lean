/-
  ScriptLang.Proofs.Grammar.Grouping — the tree of a flat chain of operators.

  `Grouped a ops e`: `e` is the tree of the operand `a` and the operators `ops`, each with
  the operand after it. The root is an operator of the lowest rank: the last one of that
  rank, or the first one at rank 8 (`^`), which alone groups to the right.
  - `Grouped.unique`: a chain has at most one tree.
  - `Grouped.extend`: a tree whose leftmost operand is itself an operator tree is the tree
    of the longer chain, if that operator ranks no lower than what follows it.
-/

import ScriptLang.Tree.Basic

namespace ScriptLang

open Token (Kind)

namespace BinaryOp

/-- The rank of an operator; higher binds tighter. -/
def precedence : BinaryOp → Nat
  | exponent => 8
  | multiply | divide | modulo => 7
  | add | subtract => 6
  | shiftLeft | shiftRight => 5
  | less | lessEqual | greater | greaterEqual => 4
  | equal | notEqual => 3
  | bitAnd | bitOr | bitXor => 2
  | and | or => 1

theorem precedence_le (op : BinaryOp) : op.precedence ≤ 8 := by cases op <;> decide

theorem precedence_of_ofKind? {k : Kind} {op : BinaryOp} (h : ofKind? k = some op) :
    k.precedence? = some op.precedence := by
  cases k <;> simp only [ofKind?, Option.some.injEq, reduceCtorEq] at h <;> subst h <;> rfl

end BinaryOp

/-- Whether what stands left of an operator of rank `p` may hold one of rank `q`. -/
def fitsLeft (p q : Nat) : Prop := p < q ∨ p = q ∧ p < 8

/-- Whether what stands right of an operator of rank `p` may hold one of rank `q`. -/
def fitsRight (p q : Nat) : Prop := p < q ∨ p = q ∧ p = 8

instance (p q : Nat) : Decidable (fitsLeft p q) := inferInstanceAs (Decidable (_ ∨ _))

instance (p q : Nat) : Decidable (fitsRight p q) := inferInstanceAs (Decidable (_ ∨ _))

/-- Of two operators in a row exactly one takes the operand between them. -/
theorem fitsLeft_iff_not_fitsRight {p q : Nat} (hp : p ≤ 8) : fitsLeft q p ↔ ¬ fitsRight p q := by
  unfold fitsLeft fitsRight
  omega

theorem fitsRight.le {p q : Nat} (h : fitsRight p q) : p ≤ q := by
  unfold fitsRight at h
  omega

theorem fitsLeft.trans {p q r : Nat} (h : fitsLeft p q) (h' : fitsLeft q r) : fitsLeft p r := by
  unfold fitsLeft at *
  omega

theorem fitsLeft.trans_right {p q r : Nat} (h : fitsLeft p q) (h' : fitsRight q r) : fitsLeft p r := by
  unfold fitsLeft fitsRight at *
  omega

/-- An operator and the operand after it. -/
abbrev Link := BinaryOp × Expr

/-- The tree of an operand and the links after it. -/
inductive Grouped : Expr → List Link → Expr → Prop
  | operand {a : Expr} : Grouped a [] a
  | split {a b l r : Expr} {op : BinaryOp} {before after : List Link} : Grouped a before l → Grouped b after r →
      (∀ o ∈ before, fitsLeft op.precedence o.1.precedence) →
      (∀ o ∈ after, fitsRight op.precedence o.1.precedence) →
      Grouped a (before ++ (op, b) :: after) (.binary op l r)

namespace Grouped

/-- The root of a chain stands at one place only. -/
theorem root_unique {before after before' after' : List Link} {o o' : Link}
    (h : before ++ o :: after = before' ++ o' :: after')
    (left : ∀ u ∈ before, fitsLeft o.1.precedence u.1.precedence)
    (right : ∀ u ∈ after, fitsRight o.1.precedence u.1.precedence)
    (left' : ∀ u ∈ before', fitsLeft o'.1.precedence u.1.precedence)
    (right' : ∀ u ∈ after', fitsRight o'.1.precedence u.1.precedence) :
    before = before' ∧ o = o' ∧ after = after' := by
  have clash {p q : Link} (hr : fitsRight p.1.precedence q.1.precedence)
      (hl : fitsLeft q.1.precedence p.1.precedence) : False :=
    (fitsLeft_iff_not_fitsRight p.1.precedence_le).mp hl hr
  rcases List.append_eq_append_iff.mp h with ⟨m, rfl, hm⟩ | ⟨m, rfl, hm⟩
  · cases m with
    | nil => simpa using hm
    | cons u m =>
      obtain ⟨rfl, rfl⟩ := List.cons.inj hm
      exact (clash (right o' (by simp)) (left' o (by simp))).elim
  · cases m with
    | nil => simpa [eq_comm] using hm
    | cons u m =>
      obtain ⟨rfl, rfl⟩ := List.cons.inj hm
      exact (clash (right' o (by simp)) (left o' (by simp))).elim

theorem unique {a e e' : Expr} {ops : List Link} (h : Grouped a ops e) (h' : Grouped a ops e') : e = e' := by
  induction h generalizing e' with
  | operand =>
    generalize hn : ([] : List Link) = ops at h'
    cases h' with
    | operand => rfl
    | split => simp at hn
  | @split a b l r op before after _ _ left right ihl ihr =>
    generalize hs : before ++ (op, b) :: after = ops at h'
    cases h' with
    | operand => simp at hs
    | split hl hr left' right' =>
      obtain ⟨rfl, ho, rfl⟩ := root_unique hs left right left' right'
      cases ho
      rw [ihl hl, ihr hr]

/-- What an operator took as its operands becomes part of the chain. -/
theorem extend {left b r e : Expr} {op : BinaryOp} {tight ops : List Link} (hb : Grouped b tight r)
    (ht : ∀ o ∈ tight, fitsRight op.precedence o.1.precedence) (he : Grouped (.binary op left r) ops e)
    (hn : ∀ o ∈ ops.head?, fitsLeft o.1.precedence op.precedence) :
    Grouped left ((op, b) :: (tight ++ ops)) e := by
  generalize ha : Expr.binary op left r = a at he
  induction he with
  | operand =>
    subst ha
    rw [List.append_nil]
    exact (.split .operand hb nofun ht : Grouped left ([] ++ (op, b) :: tight) (.binary op left r))
  | @split a c l s q before after _ hc hl hr ihl _ =>
    have hh : ∀ o ∈ before.head?, fitsLeft o.1.precedence op.precedence := by
      intro o ho
      exact hn o (by rw [List.head?_append, Option.mem_def.mp ho]; rfl)
    -- The root ranks no higher than `op`, by way of the first link before it, if there is one.
    have hq : fitsLeft q.precedence op.precedence := by
      cases before with
      | nil => exact hn (q, c) rfl
      | cons o before => exact (hl o (List.mem_cons_self ..)).trans (hh o rfl)
    have key : Grouped left (((op, b) :: (tight ++ before)) ++ (q, c) :: after) (.binary q l s) := by
      refine .split (ihl hh ha) hc (fun o ho => ?_) hr
      simp only [List.mem_cons, List.mem_append] at ho
      rcases ho with rfl | ho | ho
      · exact hq
      · exact hq.trans_right (ht o ho)
      · exact hl o ho
    simpa using key

end Grouped

end ScriptLang
