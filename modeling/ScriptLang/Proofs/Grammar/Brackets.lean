/-
  ScriptLang.Proofs.Grammar.Brackets — where a derivation begins, and the brackets in it.

  - `Atom.starts`, …, `Statement.starts`: the first token of a derived expression or statement.
  - `Atom.balanced`, …, `Expression.balanced`: a derived expression closes as many brackets as it
    opens, and none before it opens it.
  - `Takes.closing_eq`: `closing` goes through tokens as their brackets say.
  - `Expression.closing_eq`: so it goes through those of an expression unchanged, and the place
    that `assignsElement` looks for is where the index ends.
  - `Expression.not_assigns`: no equals sign comes after the name, or after the index, that a
    derived expression begins with.
-/

import ScriptLang.Proofs.Grammar.Steps

namespace ScriptLang.Grammar

open Token (Kind)

variable {last : Except Fault Token}

/-! ## First tokens -/

/-- A kind that an atom may start with. -/
def startsAtom : Kind → Bool
  | .openParen | .minus | .tilde | .not | .bang | .name | .emptyWord | .trueWord | .falseWord | .string | .number
  | .date => true
  | _ => false

/-- A kind that a statement may start with. -/
def startsStatement (k : Kind) : Bool :=
  startsAtom k || match k with
    | .letWord | .ifWord | .whileWord | .defWord | .returnWord | .openBrace => true
    | _ => false

theorem Atom.starts {x y : List Token} {e : Expr} (h : Atom x e y) : ∃ t z, x = t :: z ∧ startsAtom t.kind = true := by
  cases h with
  | inner ho => exact ⟨_, _, rfl, by rw [ho]; rfl⟩
  | @unary t op _ _ _ hk =>
    refine ⟨_, _, rfl, ?_⟩
    revert hk
    cases t.kind <;> simp [UnaryOp.ofKind?, startsAtom]
  | var ht => exact ⟨_, _, rfl, by rw [ht.kind]; rfl⟩
  | call ht => exact ⟨_, _, rfl, by rw [ht.kind]; rfl⟩
  | element ht => exact ⟨_, _, rfl, by rw [ht.kind]; rfl⟩
  | literal hv => exact ⟨_, _, rfl, by cases hv <;> simp [*, startsAtom]⟩

theorem Expression.starts {x y : List Token} {e : Expr} (h : Expression x e y) :
    ∃ t z, x = t :: z ∧ startsAtom t.kind = true := by
  cases h with
  | chain ha _ _ => exact ha.starts

theorem Statement.starts {x y : List Token} {s : Stmt} (h : Statement x s y) :
    ∃ t z, x = t :: z ∧ startsStatement t.kind = true := by
  cases h with
  | declare hl => exact ⟨_, _, rfl, by rw [hl]; rfl⟩
  | declareArray hl => exact ⟨_, _, rfl, by rw [hl]; rfl⟩
  | assign ht => exact ⟨_, _, rfl, by rw [ht.kind]; rfl⟩
  | assignElement ht => exact ⟨_, _, rfl, by rw [ht.kind]; rfl⟩
  | ifThen hi => exact ⟨_, _, rfl, by rw [hi]; rfl⟩
  | ifElse hi => exact ⟨_, _, rfl, by rw [hi]; rfl⟩
  | whileLoop hw => exact ⟨_, _, rfl, by rw [hw]; rfl⟩
  | define hd => exact ⟨_, _, rfl, by rw [hd]; rfl⟩
  | returns hr => exact ⟨_, _, rfl, by rw [hr]; rfl⟩
  | returnsValue hr => exact ⟨_, _, rfl, by rw [hr]; rfl⟩
  | block hb => cases hb with | braces ho => exact ⟨_, _, rfl, by rw [ho]; rfl⟩
  | expression he =>
    obtain ⟨t, z, hx, ht⟩ := he.starts
    exact ⟨t, z, hx, by simp [startsStatement, ht]⟩

/-! ## Brackets -/

theorem closing_open {t : Token} {x : List Token} (d : Nat) (h : t.kind = .openBracket) :
    closing (d + 1) (t :: x) = closing (d + 2) x := by simp [closing, h]

theorem closing_close {t : Token} {x : List Token} (d : Nat) (h : t.kind = .closeBracket) :
    closing (d + 1) (t :: x) = closing d x := by simp [closing, h]

theorem closing_other {t : Token} {x : List Token} (d : Nat) (h : t.kind ≠ .openBracket) (h' : t.kind ≠ .closeBracket) :
    closing (d + 1) (t :: x) = closing (d + 1) x := by
  simp only [closing]

theorem closing_kind {t : Token} {x : List Token} {k : Kind} (d : Nat) (h : t.kind = k)
    (hk : k ≠ .openBracket ∧ k ≠ .closeBracket) : closing (d + 1) (t :: x) = closing (d + 1) x :=
  closing_other d (h ▸ hk.1) (h ▸ hk.2)

/-- How many brackets are open after a token, where there were `depth + 1` before it. -/
def depthAfter (depth : Nat) : Kind → Nat
  | .openBracket => depth + 2
  | .closeBracket => depth
  | _ => depth + 1

theorem closing_cons (depth : Nat) (t : Token) (x : List Token) :
    closing (depth + 1) (t :: x) = closing (depthAfter depth t.kind) x := by
  rw [closing]
  cases t.kind <;> rfl

/-- How many square brackets the tokens open. -/
def opened (w : List Token) : Nat := w.countP (·.kind == .openBracket)

/-- How many square brackets the tokens close. -/
def closed (w : List Token) : Nat := w.countP (·.kind == .closeBracket)

theorem opened_append (u v : List Token) : opened (u ++ v) = opened u + opened v := List.countP_append

theorem closed_append (u v : List Token) : closed (u ++ v) = closed u + closed v := List.countP_append

theorem opened_cons (t : Token) (w : List Token) : opened (t :: w) = opened [t] + opened w := opened_append [t] w

theorem closed_cons (t : Token) (w : List Token) : closed (t :: w) = closed [t] + closed w := closed_append [t] w

theorem depthAfter_eq (depth : Nat) (t : Token) : depthAfter depth t.kind + closed [t] = depth + 1 + opened [t] := by
  rw [opened, closed, List.countP_singleton, List.countP_singleton]
  cases t.kind <;> rfl

/-- The tokens close as many square brackets as they open, and from their start up to any place
    no more than they open. -/
structure Balanced (w : List Token) : Prop where
  even : closed w = opened w
  upTo (k : Nat) : closed (w.take k) ≤ opened (w.take k)

/-- The tokens take `d` open brackets to `d'`, and some are open before each of them. -/
structure Takes (d : Nat) (w : List Token) (d' : Nat) : Prop where
  left : d' + closed w = d + opened w
  within (k : Nat) : k < w.length → closed (w.take k) < d + opened (w.take k)

/-- The first of the tokens, and the others. -/
theorem Takes.cons {d d' : Nat} {t : Token} {w : List Token} (h : Takes d (t :: w) d') :
    ∃ depth, d = depth + 1 ∧ Takes (depthAfter depth t.kind) w d' := by
  have hleft := h.left
  have hfirst := h.within 0 (Nat.zero_lt_succ _)
  rw [opened_cons, closed_cons] at hleft
  obtain ⟨depth, rfl⟩ : ∃ depth, d = depth + 1 := ⟨d - 1, by simp [opened, closed] at hfirst; omega⟩
  have hafter := depthAfter_eq depth t
  refine ⟨depth, rfl, by omega, fun k hk => ?_⟩
  have hwithin := h.within (k + 1) (Nat.succ_lt_succ hk)
  rw [List.take_succ_cons, opened_cons, closed_cons] at hwithin
  omega

theorem Takes.closing_eq {d d' : Nat} {w : List Token} (h : Takes d w d') (y : List Token) :
    closing d (w ++ y) = closing d' y := by
  induction w generalizing d with
  | nil =>
    obtain rfl : d' = d := h.left
    rfl
  | cons t w ih =>
    obtain ⟨depth, rfl, hw⟩ := h.cons
    rw [List.cons_append, closing_cons, ih hw]

namespace Balanced

variable {u v w : List Token} {t o c : Token}

theorem nil : Balanced [] := ⟨rfl, fun k => by rw [List.take_nil]; exact Nat.le_refl _⟩

theorem append (hu : Balanced u) (hv : Balanced v) : Balanced (u ++ v) where
  even := by rw [opened_append, closed_append, hu.even, hv.even]
  upTo k := by
    rw [List.take_append, opened_append, closed_append]
    exact Nat.add_le_add (hu.upTo k) (hv.upTo (k - u.length))

theorem single (h : t.kind ≠ .openBracket) (h' : t.kind ≠ .closeBracket) : Balanced [t] := by
  have ho : opened [t] = 0 := by simp [opened, h]
  have hc : closed [t] = 0 := by simp [closed, h']
  refine ⟨by rw [ho, hc], fun k => ?_⟩
  cases k with
  | zero => exact Nat.le_refl _
  | succ k => rw [List.take_succ_cons, List.take_nil, hc]; exact Nat.zero_le _

theorem single_kind {k : Kind} (h : t.kind = k) (hk : k ≠ .openBracket ∧ k ≠ .closeBracket) : Balanced [t] :=
  single (h ▸ hk.1) (h ▸ hk.2)

theorem enclosed (ho : o.kind = .openBracket) (hc : c.kind = .closeBracket) (hw : Balanced w) :
    Balanced (o :: (w ++ [c])) := by
  have hopen : opened [o] = 1 ∧ closed [o] = 0 := by simp [opened, closed, ho]
  have hclose : opened [c] = 0 ∧ closed [c] = 1 := by simp [opened, closed, hc]
  have heven := hw.even
  constructor
  · rw [opened_cons, closed_cons, opened_append, closed_append]
    omega
  · intro k
    cases k with
    | zero => exact Nat.le_refl _
    | succ k =>
      -- Before the closing bracket the opening one is ahead by one, and it closes no more.
      have hinner := hw.upTo k
      have hlast : closed ([c].take (k - w.length)) ≤ closed [c] := (List.take_sublist _ _).countP_le
      rw [List.take_succ_cons, List.take_append, opened_cons, closed_cons, opened_append, closed_append]
      omega

/-- Balanced tokens leave open what is open before them. -/
theorem takes (h : Balanced w) (d : Nat) : Takes (d + 1) w (d + 1) := by
  have heven := h.even
  refine ⟨by omega, fun k _ => ?_⟩
  have := h.upTo k
  omega

end Balanced

mutual

theorem Atom.balanced : ∀ {x : List Token} {e : Expr} {y : List Token}, Atom x e y → ∃ w, x = w ++ y ∧ Balanced w
  | _, _, _, .inner (o := o) (c := c) ho h hc => by
    obtain ⟨w, rfl, hw⟩ := h.balanced
    exact ⟨[o] ++ w ++ [c], by simp,
      ((Balanced.single_kind ho (by decide)).append hw).append (.single_kind hc (by decide))⟩
  | _, _, _, .unary (t := t) hk h => by
    obtain ⟨w, rfl, hw⟩ := h.balanced
    exact ⟨[t] ++ w, rfl, (Balanced.single_kind rfl (by revert hk; cases t.kind <;> simp [UnaryOp.ofKind?])).append hw⟩
  | _, _, _, .var (t := t) ht => ⟨[t], rfl, .single_kind ht.kind (by decide)⟩
  | _, _, _, .call (t := t) (o := o) ht ho h => by
    obtain ⟨w, rfl, hw⟩ := h.balanced
    exact ⟨[t] ++ [o] ++ w, rfl,
      ((Balanced.single_kind ht.kind (by decide)).append (.single_kind ho (by decide))).append hw⟩
  | _, _, _, .element (t := t) (o := o) (c := c) ht ho h hc => by
    obtain ⟨w, rfl, hw⟩ := h.balanced
    exact ⟨[t] ++ o :: (w ++ [c]), by simp, (Balanced.single_kind ht.kind (by decide)).append (.enclosed ho hc hw)⟩
  | _, _, _, .literal (t := t) hv => ⟨[t], rfl, .single (hv.kind_ne (by decide)) (hv.kind_ne (by decide))⟩

theorem Expression.balanced : ∀ {x : List Token} {e : Expr} {y : List Token}, Expression x e y →
    ∃ w, x = w ++ y ∧ Balanced w
  | _, _, _, .chain ha hc _ => by
    obtain ⟨w, rfl, hw⟩ := ha.balanced
    obtain ⟨v, rfl, hv⟩ := hc.balanced
    exact ⟨w ++ v, (List.append_assoc ..).symm, hw.append hv⟩

theorem Chain.balanced : ∀ {x : List Token} {ops : List Link} {y : List Token}, Chain x ops y →
    ∃ w, x = w ++ y ∧ Balanced w
  | _, _, _, .nil => ⟨[], rfl, .nil⟩
  | _, _, _, .cons (t := t) hk ha hc => by
    obtain ⟨w, rfl, hw⟩ := ha.balanced
    obtain ⟨v, rfl, hv⟩ := hc.balanced
    have ht : Balanced [t] := .single_kind rfl (by revert hk; cases t.kind <;> simp [BinaryOp.ofKind?])
    exact ⟨[t] ++ w ++ v, by simp, (ht.append hw).append hv⟩

theorem Arguments.balanced : ∀ {x : List Token} {es : List Expr} {y : List Token}, Arguments x es y →
    ∃ w, x = w ++ y ∧ Balanced w
  | _, _, _, .one (c := c) h hc => by
    obtain ⟨w, rfl, hw⟩ := h.balanced
    exact ⟨w ++ [c], by simp, hw.append (.single_kind hc (by decide))⟩
  | _, _, _, .more (c := c) h hc h' => by
    obtain ⟨w, rfl, hw⟩ := h.balanced
    obtain ⟨v, rfl, hv⟩ := h'.balanced
    exact ⟨w ++ [c] ++ v, by simp, (hw.append (.single_kind hc (by decide))).append hv⟩

end

theorem Expression.closing_eq {x y : List Token} {e : Expr} (h : Expression x e y) (d : Nat) :
    closing (d + 1) x = closing (d + 1) y := by
  obtain ⟨w, rfl, hw⟩ := h.balanced
  exact (hw.takes d).closing_eq y

/-! ## Equals signs -/

theorem Chain.next_kind {x y : List Token} {ops : List Link} {k : Kind} (h : Chain x ops y) (hk : BinaryOp.ofKind? k = none)
    (hy : ∀ t, Next last y t → t.kind ≠ k) : ∀ t, Next last x t → t.kind ≠ k := by
  cases h with
  | nil => exact hy
  | cons hop =>
    intro t ht he
    rw [← ht.head, he, hk] at hop
    cases hop

/-- No equals sign follows the name or the index that an expression begins with. -/
theorem Expression.not_assigns {t : Token} {x y : List Token} {e : Expr} (h : Expression (t :: x) e y) (ht : t.kind = .name)
    (hy : ∀ u, Next last y u → u.kind ≠ .assign ∧ u.kind ≠ .openBracket) :
    (∀ u, Next last x u → u.kind ≠ .assign) ∧ ∀ o z, x = o :: z → o.kind = .openBracket → ¬ Assigns 1 z := by
  have next {o : Token} {z : List Token} {k : Kind} (ho : o.kind = k) (hk : k ≠ .endOfText) : Next last (o :: z) o :=
    .token (ho ▸ hk)
  cases h with
  | chain ha hc _ =>
    have hassign : ∀ u, Next last _ u → _ := hc.next_kind (k := .assign) rfl fun u hu => (hy u hu).1
    cases ha with
    | inner ho => cases ho.symm.trans ht
    | unary hop => rw [ht] at hop; cases hop
    | literal hv => cases hv <;> simp_all
    | var =>
      refine ⟨hassign, ?_⟩
      intro o z he ho
      subst he
      exact absurd ho (hc.next_kind (k := .openBracket) rfl (fun u hu => (hy u hu).2) o (next ho (by decide)))
    | call _ ho' =>
      refine ⟨fun u hu => by simp [hu.head, ho'], ?_⟩
      intro o z ha ho
      cases ha
      cases ho.symm.trans ho'
    | element _ ho' he hc' =>
      refine ⟨fun u hu => by simp [hu.head, ho'], ?_⟩
      intro o z ha _ hassigns
      cases ha
      rcases hassigns with ⟨q, v, hq, hk⟩
      rw [he.closing_eq 0, closing_close 0 hc'] at hq
      obtain rfl := by simpa [closing] using hq
      exact hassign q (next hk (by decide)) hk

end ScriptLang.Grammar
