/-
  ScriptLang.Proofs.Grammar.Completeness — every derivation is read, with its own tree.

  A reader in front of tokens that derive a value returns that value and leaves what the
  derivation leaves, if what comes after cannot be taken for more of it. The only fault
  allowed is a want of depth. The induction is on the derivation; only the chain of operators,
  which `climb` and `absorb` cut at other places than the grammar does, needs one on the depth.
  - `Statements.noElse`: after a derived `if` without `else` no `else` is found.
  - `Program.read`: a program that the tokens derive is read.
-/

import ScriptLang.Proofs.Grammar.Brackets

namespace ScriptLang.Grammar

open Lookahead
open Token (Kind)

variable {σ α β : Type} [TokenStream σ] {last : Except Fault Token}

def Shallow (f : Fault) (_ : List Token) : Prop := f = .tooDeep

/-- The reading gives `a` and leaves `y`, unless it is too shallow. -/
def Returns (last : Except Fault Token) (m : Reading σ α) (x : List Token) (a : α) (y : List Token) : Prop :=
  Reads last m x (fun r z => r = a ∧ z = y) Shallow

theorem Returns.pure {a : α} {x : List Token} : Returns last (σ := σ) (pure a) x a x := Reads.pure ⟨rfl, rfl⟩

theorem Returns.shallow {a : α} {x y : List Token} : Returns last (throw .tooDeep : Reading σ α) x a y := Reads.throw rfl

theorem Returns.bind {m : Reading σ α} {g : α → Reading σ β} {a : α} {x y : List Token} {Q : β → List Token → Prop}
    (h : Returns last m x a y) (hg : Reads last (g a) y Q Shallow) : Reads last (m >>= g) x Q Shallow :=
  .seq h fun _ _ ⟨ha, hy⟩ => by subst ha hy; exact hg

theorem Returns.take {t : Token} {x : List Token} : Returns last (Lookahead.take (σ := σ)) (t :: x) t x :=
  Reads.take ⟨rfl, rfl⟩

theorem Returns.nextKind {t : Token} {x : List Token} : Returns last (peekKind (σ := σ) 0) (t :: x) t.kind (t :: x) :=
  Reads.nextKind fun _ h => ⟨by rw [h.head], rfl⟩

theorem Returns.takeIf {t : Token} {x : List Token} {k : Kind} (h : t.kind = k) :
    Returns last (Lookahead.takeIf (σ := σ) k) (t :: x) true x := by
  refine Returns.bind .nextKind ?_
  rw [if_pos h]
  exact Returns.bind .take Returns.pure

theorem Returns.takeIf_not {x : List Token} {k : Kind} (hk : k ≠ .endOfText)
    (h : ∀ t, Next last x t → t.kind ≠ k) : Returns last (Lookahead.takeIf (σ := σ) k) x false x := by
  refine Reads.takeIf hk (fun t y hx ht => ?_) fun _ _ _ => ⟨rfl, rfl⟩
  subst hx
  exact absurd ht (h t (.token (ht ▸ hk)))

theorem Returns.expect {t : Token} {x : List Token} {k : Kind} {w : Expectation} (h : t.kind = k) :
    Returns last (Lookahead.expect (σ := σ) k w) (t :: x) t x := by
  unfold Lookahead.expect
  refine Returns.bind .nextKind ?_
  rw [if_pos h]
  exact Returns.take

theorem Returns.name? {t : Token} {x : List Token} (h : Named t) :
    Returns last (Grammar.name? (σ := σ)) (t :: x) (some t.text) x := by
  unfold Grammar.name?
  refine Returns.bind .nextKind ?_
  rw [if_pos h.kind]
  refine Returns.bind .take ?_
  rw [if_pos h.proper]
  exact Returns.pure

theorem Returns.name {t : Token} {x : List Token} {w : Expectation} (h : Named t) :
    Returns last (Grammar.name (σ := σ) w) (t :: x) t.text x := Returns.bind (.name? h) Returns.pure

/-! ## Expressions -/

/-- What may come after an atom: nothing that would make more of a name. -/
def Calm (last : Except Fault Token) (x : List Token) : Prop :=
  ∀ t, Next last x t → t.kind ≠ .openParen ∧ t.kind ≠ .openBracket

/-- What may come after an expression: no operator either. -/
def Quiet (last : Except Fault Token) (x : List Token) : Prop :=
  ∀ t, Next last x t → t.kind ≠ .openParen ∧ t.kind ≠ .openBracket ∧ t.kind.precedence? = none

theorem Quiet.calm {x : List Token} (h : Quiet last x) : Calm last x := fun t ht => ⟨(h t ht).1, (h t ht).2.1⟩

/-- No operator comes next. -/
def Still (last : Except Fault Token) (x : List Token) : Prop := ∀ t, Next last x t → t.kind.precedence? = none

theorem Quiet.still {x : List Token} (h : Quiet last x) : Still last x := fun t ht => (h t ht).2.2

/-- What may come after tokens that end in a name. -/
def Settled (last : Except Fault Token) (x y : List Token) : Prop := ∀ t, t :: y <:+ x → t.kind = .name → Calm last y

theorem Settled.of_suffix {x x' y : List Token} (h : Settled last x y) (hx : x' <:+ x) : Settled last x' y :=
  fun t ht hk => h t (ht.trans hx) hk

theorem Calm.settled {x y : List Token} (h : Calm last y) : Settled last x y := fun _ _ _ => h

theorem Quiet.of_kind {t : Token} {x : List Token} {k : Kind} (ht : t.kind = k)
    (hk : k ≠ .openParen ∧ k ≠ .openBracket ∧ k.precedence? = none) : Quiet last (t :: x) :=
  fun _ hu => by rw [hu.head, ht]; exact hk

/-- An expression may end where `y` starts: no operator comes next, and after a name no bracket opens. -/
structure MayEnd (last : Except Fault Token) (x y : List Token) : Prop where
  still : Still last y
  settled : Settled last x y

theorem Quiet.mayEnd {x y : List Token} (h : Quiet last y) : MayEnd last x y := ⟨h.still, h.calm.settled⟩

theorem MayEnd.of_kind {t : Token} {x y : List Token} {k : Kind} (ht : t.kind = k)
    (hk : k ≠ .openParen ∧ k ≠ .openBracket ∧ k.precedence? = none) : MayEnd last x (t :: y) := (Quiet.of_kind ht hk).mayEnd

/-- Either a chain is empty, or an operator is what comes after the operand before it. -/
theorem Chain.settled {x y z : List Token} {ops : List Link} (h : Chain y ops z) (hz : Settled last x z) : Settled last x y := by
  cases h with
  | nil => exact hz
  | @cons t _ _ _ op _ _ hk _ _ =>
    refine Calm.settled fun u hu => ?_
    rw [hu.head]
    constructor <;> intro he <;> rw [he] at hk <;> cases hk

/-- A chain of operators whose atoms are read. -/
inductive Readable (σ : Type) [TokenStream σ] (last : Except Fault Token) : List Token → List Link → List Token → Prop
  | nil {x : List Token} : Readable σ last x [] x
  | cons {t : Token} {x y z : List Token} {op : BinaryOp} {a : Expr} {ops : List Link} :
      BinaryOp.ofKind? t.kind = some op → (∀ n, Returns last (atom? (σ := σ) n) x (some a) y) →
      Readable σ last y ops z → Readable σ last (t :: x) ((op, a) :: ops) z

/-- Where `climb` cuts a chain: after the operators of rank `least` or more. -/
def CutBelow (σ : Type) [TokenStream σ] (last : Except Fault Token) (least : Nat) (left : Expr) (ops : List Link)
    (z : List Token) (e : Expr) (y : List Token) : Prop :=
  ∃ taken rest, ops = taken ++ rest ∧ Readable σ last y rest z ∧ Grouped left taken e ∧
    (∀ o ∈ taken, least ≤ o.1.precedence) ∧ ∀ o ∈ rest.head?, o.1.precedence < least

/-- Where `absorb` cuts a chain: after the operators that bind into the right operand. -/
def CutRight (σ : Type) [TokenStream σ] (last : Except Fault Token) (rank : Nat) (right : Expr) (ops : List Link)
    (z : List Token) (e : Expr) (y : List Token) : Prop :=
  ∃ taken rest, ops = taken ++ rest ∧ Readable σ last y rest z ∧ Grouped right taken e ∧
    (∀ o ∈ taken, fitsRight rank o.1.precedence) ∧ ∀ o ∈ rest.head?, ¬ fitsRight rank o.1.precedence

/-- The two cuts at one depth. -/
def Cuts (σ : Type) [TokenStream σ] (last : Except Fault Token) (n : Nat) : Prop :=
  ∀ {x z : List Token} {ops : List Link}, Readable σ last x ops z → Still last z →
    (∀ left least, Reads last (climb (σ := σ) n left least) x (CutBelow σ last least left ops z) Shallow) ∧
    ∀ right rank, rank ≤ 8 → Reads last (absorb (σ := σ) n right rank) x (CutRight σ last rank right ops z) Shallow

section Cuts

variable {n : Nat} {x z : List Token} {ops : List Link} (ih : Cuts σ last n)

include ih

theorem climb_cut (h : Readable σ last x ops z) (hz : Still last z) (left : Expr) (least : Nat) :
    Reads last (climb (σ := σ) (n + 1) left least) x (CutBelow σ last least left ops z) Shallow := by
  rw [climb]
  cases h with
  | nil =>
    refine .bind (.nextKind ?_)
    intro t ht
    rw [hz t ht]
    exact .pure ⟨[], [], rfl, .nil, .operand, nofun, nofun⟩
  | @cons t x y _ op a ops hk ha hc =>
    refine Returns.bind .nextKind ?_
    rw [BinaryOp.precedence_of_ofKind? hk]
    show Reads last (if op.precedence < least then _ else _) _ _ _
    split
    · rename_i hlt
      exact .pure ⟨[], (op, a) :: ops, rfl, .cons hk ha hc, .operand, nofun, fun o ho => by cases ho; exact hlt⟩
    refine Returns.bind .take (Returns.bind (ha n) (Returns.bind .pure ?_))
    rename_i hle
    refine .seq ((ih hc hz).2 a op.precedence op.precedence_le) ?_
    intro r u habsorb
    rcases habsorb with ⟨tight, rest, rfl, hr, hg, hfit, hstop⟩
    unfold combine
    rw [hk]
    refine Returns.bind .pure (.mono ((ih hr hz).1 _ least) ?_ fun _ _ => id)
    intro e v hclimb
    rcases hclimb with ⟨taken, rest, rfl, hr', hg', hleast, hstop'⟩
    refine ⟨(op, a) :: (tight ++ taken), rest, by simp, hr', hg.extend hfit hg' fun o ho => ?_, fun o ho => ?_, hstop'⟩
    · refine (fitsLeft_iff_not_fitsRight op.precedence_le).mpr (hstop o ?_)
      rw [List.head?_append, Option.mem_def.mp ho]
      rfl
    · simp only [List.mem_cons, List.mem_append] at ho
      rcases ho with rfl | ho | ho
      · exact Nat.le_of_not_lt hle
      · exact Nat.le_trans (Nat.le_of_not_lt hle) (hfit o ho).le
      · exact hleast o ho

/-- One climb takes every operator that fits; `absorb` finds none of them after it. -/
theorem absorb_climb_cut (h : Readable σ last x ops z) (hz : Still last z) {right : Expr} {rank least : Nat}
    (hr : rank ≤ 8) (hfits : ∀ p, fitsRight rank p ↔ least ≤ p) :
    Reads last (climb n right least >>= fun r => absorb n r rank : Reading σ Expr) x
      (CutRight σ last rank right ops z) Shallow := by
  refine .seq ((ih h hz).1 right least) ?_
  intro e y hclimb
  rcases hclimb with ⟨taken, rest, rfl, hrest, hg, hleast, hstop⟩
  refine .mono ((ih hrest hz).2 e rank hr) ?_ fun _ _ => id
  intro e' u habsorb
  rcases habsorb with ⟨more, rest, rfl, hrest', hg', hfit, hstop'⟩
  cases more with
  | nil =>
    cases hg'.unique .operand
    exact ⟨taken, rest, rfl, hrest', hg, fun o ho => (hfits _).mpr (hleast o ho), hstop'⟩
  | cons o more =>
    exact absurd ((hfits _).mp (hfit o (List.mem_cons_self ..))) (Nat.not_le_of_lt (hstop o rfl))

theorem absorb_cut (h : Readable σ last x ops z) (hz : Still last z) (right : Expr) {rank : Nat} (hr : rank ≤ 8) :
    Reads last (absorb (σ := σ) (n + 1) right rank) x (CutRight σ last rank right ops z) Shallow := by
  rw [absorb]
  cases h with
  | nil =>
    refine .bind (.nextKind ?_)
    intro t ht
    rw [hz t ht]
    exact .pure ⟨[], [], rfl, .nil, .operand, nofun, nofun⟩
  | @cons t x y _ op a ops hk ha hc =>
    have hp := BinaryOp.precedence_of_ofKind? hk
    have hright := Kind.groupsRight_iff t.kind
    have hle := op.precedence_le
    refine Returns.bind .nextKind ?_
    rw [hp] at hright ⊢
    show Reads last (if rank < op.precedence then _ else _) _ _ _
    split
    · exact absorb_climb_cut ih (.cons hk ha hc) hz hr fun p => by unfold fitsRight; omega
    split
    · rename_i he
      have h8 : op.precedence = 8 := Option.some.inj (hright.mp he.2)
      exact absorb_climb_cut ih (.cons hk ha hc) hz hr fun p => by unfold fitsRight; omega
    · rename_i hlt he
      refine .pure ⟨[], (op, a) :: ops, rfl, .cons hk ha hc, .operand, nofun, ?_⟩
      intro _ ha hfit
      cases ha
      rcases hfit with h | ⟨h, h8⟩
      · exact hlt h
      · exact he ⟨h.symm, hright.mpr (by rw [← h, h8])⟩

end Cuts

theorem cuts (n : Nat) : Cuts σ last n := by
  induction n with
  | zero => exact fun _ _ => ⟨fun _ _ => .throw rfl, fun _ _ _ => .throw rfl⟩
  | succ n ih => exact fun h hz => ⟨climb_cut ih h hz, fun right _ hr => absorb_cut ih h hz right hr⟩

theorem Returns.expression {n : Nat} {w : Expectation} {x y : List Token} {e : Expr}
    (h : Returns last (expression? (σ := σ) n) x (some e) y) :
    Returns last (Grammar.expression (σ := σ) n w) x e y := Returns.bind h Returns.pure

/-- An atom that starts with a name is what the name refers to. -/
theorem Returns.named {n : Nat} {t : Token} {x y : List Token} {e : Expr} (ht : Named t)
    (h : Returns last (reference (σ := σ) n t.text) x e y) : Returns last (atom? (σ := σ) (n + 1)) (t :: x) (some e) y := by
  rw [atom?]
  refine Returns.bind .nextKind ?_
  rw [ht.kind, if_neg (by decide)]
  exact Returns.bind (.name? ht) (Returns.bind h Returns.pure)

mutual

theorem Atom.read : ∀ {x : List Token} {e : Expr} {y : List Token}, Atom x e y → Settled last x y →
    ∀ n, Returns last (atom? (σ := σ) n) x (some e) y
  | _, _, _, _, _, 0 => Returns.shallow
  | _, _, _, .inner ho h hc, _, n + 1 => by
    rw [atom?]
    refine Returns.bind .nextKind ?_
    rw [if_pos ho]
    refine Returns.bind .take (Returns.bind (h.read_mayEnd (.of_kind hc (by decide)) n) (Returns.bind .pure ?_))
    exact Returns.bind (.expect hc) Returns.pure
  | _, _, _, .unary hk h, hy, n + 1 => by
    rw [atom?]
    refine Returns.bind .nextKind ?_
    rw [if_neg (by intro he; rw [he] at hk; cases hk), hk]
    exact Returns.bind .take (Returns.bind (h.read (hy.of_suffix (List.suffix_cons ..)) n) (Returns.bind .pure Returns.pure))
  | _, _, _, .var ht, hy, n + 1 => by
    have hcalm := hy _ List.suffix_rfl ht.kind
    refine .named ht ?_
    cases n with
    | zero => exact .shallow
    | succ n =>
      rw [reference]
      refine Returns.bind (.takeIf_not (by decide) fun u hu => (hcalm u hu).1) ?_
      exact Returns.bind (.takeIf_not (by decide) fun u hu => (hcalm u hu).2) Returns.pure
  | _, _, _, .call ht ho h, _, n + 1 => by
    refine .named ht ?_
    cases n with
    | zero => exact .shallow
    | succ n =>
      rw [reference]
      exact Returns.bind (.takeIf ho) (Returns.bind (h.read n) Returns.pure)
  | _, _, _, .element ht ho h hc, _, n + 1 => by
    refine .named ht ?_
    cases n with
    | zero => exact .shallow
    | succ n =>
      rw [reference]
      refine Returns.bind (.takeIf_not (by decide) fun u hu => by simp [hu.head, ho]) ?_
      refine Returns.bind (.takeIf ho) (Returns.bind (h.read_mayEnd (.of_kind hc (by decide)) n) (Returns.bind .pure ?_))
      exact Returns.bind (.expect hc) Returns.pure
  | _, _, _, .literal hv, _, n + 1 => by
    rw [atom?]
    refine Returns.bind .nextKind ?_
    rw [if_neg (hv.kind_ne (by decide)), hv.not_unary]
    refine .bind (.name? (fun t y hx ht => ?_) (fun t y hx ht _ => ?_) fun t ht hk => ?_)
    · cases hx
      exact absurd ht.kind (hv.kind_ne (by decide))
    · cases hx
      exact absurd ht (hv.kind_ne (by decide))
    · refine .bind (.literal? (fun t y v hx hv' => .pure ?_) (fun t f ht hf => ?_) fun t ht hno => ?_)
      · cases hx
        rw [constant_iff] at hv hv'
        cases hv.symm.trans hv'
        exact ⟨rfl, rfl⟩
      · rw [ht.head, constant_iff.mp hv] at hf
        cases hf
      · rw [ht.head, constant_iff.mp hv] at hno
        cases hno

theorem Expression.read_mayEnd : ∀ {x : List Token} {e : Expr} {y : List Token}, Expression x e y → MayEnd last x y →
    ∀ n, Returns last (expression? (σ := σ) n) x (some e) y
  | _, _, _, _, _, 0 => Returns.shallow
  | _, _, _, .chain ha hc hg, hy, n + 1 => by
    rw [expression?]
    refine Returns.bind (ha.read (hc.settled hy.settled) n) ?_
    refine .seq ((cuts n (hc.read (hy.settled.of_suffix ha.suffix)) hy.still).1 _ 0) ?_
    intro e z hclimb
    rcases hclimb with ⟨taken, rest, rfl, hr, hg', -, hstop⟩
    cases rest with
    | nil =>
      cases hr
      rw [List.append_nil] at hg
      exact .pure ⟨by rw [hg.unique hg'], rfl⟩
    | cons o rest => exact absurd (hstop o rfl) (Nat.not_lt_zero _)

theorem Chain.read : ∀ {x : List Token} {ops : List Link} {y : List Token}, Chain x ops y → Settled last x y →
    Readable σ last x ops y
  | _, _, _, .nil, _ => .nil
  | _, _, _, .cons hk ha hc, hx =>
    have hx := hx.of_suffix (List.suffix_cons ..)
    .cons hk (fun n => ha.read (hc.settled hx) n) (hc.read (hx.of_suffix ha.suffix))

theorem Arguments.read : ∀ {x : List Token} {es : List Expr} {y : List Token}, Arguments x es y →
    ∀ n, Returns last (arguments (σ := σ) n) x es y
  | _, _, _, _, 0 => Returns.shallow
  | _, _, _, .one h hc, n + 1 => by
    rw [arguments]
    refine Returns.bind (h.read_mayEnd (.of_kind hc (by decide)) n) (Returns.bind .pure (Returns.bind (.takeIf hc) ?_))
    exact Returns.pure
  | _, _, _, .more h hc h', n + 1 => by
    rw [arguments]
    refine Returns.bind (h.read_mayEnd (.of_kind hc (by decide)) n) (Returns.bind .pure (Returns.bind (.takeIf_not (by decide) ?_) ?_))
    · exact fun u hu => by simp [hu.head, hc]
    · exact Returns.bind (.expect hc) (Returns.bind (h'.read n) Returns.pure)

end

theorem Expression.read {x : List Token} {e : Expr} {y : List Token} (h : Expression x e y) (hy : Quiet last y) (n : Nat) :
    Returns last (expression? (σ := σ) n) x (some e) y := h.read_mayEnd hy.mayEnd n

/-! ## Statements -/

theorem Ended.quiet {x : List Token} (h : Ended x) : Quiet last x := by
  intro t ht
  have hs := h.endsStatement ht
  revert hs
  cases t.kind <;> decide

/-- No `else` comes after layout alone. -/
def NoElse (x : List Token) : Prop := ∀ gap k y, x = gap ++ k :: y → (∀ t ∈ gap, isLayout t) → k.kind ≠ .elseWord

theorem Statements.noElse {x y : List Token} {b : Scope} (h : Statements x b y) (hy : ScopeEnds last y) : NoElse x := by
  have next {t : Token} {x : List Token} (hk : t.kind ≠ .endOfText) : Next last (t :: x) t := .token hk
  intro gap
  induction gap generalizing x b with
  | nil =>
    intro k z he _ hk
    subst he
    cases h with
    | nil => rcases hy k (next (by simp [hk])) with he | he <;> cases he.symm.trans hk
    | skip hs _ => rw [hk] at hs; cases hs
    | cons hs _ _ =>
      obtain ⟨t, z, hx, ht⟩ := hs.starts
      cases hx
      rw [hk] at ht
      cases ht
  | cons g gap ih =>
    intro k z he hg
    subst he
    have hl : isLayout g := hg g (List.mem_cons_self ..)
    cases h with
    | nil =>
      rcases hy g (next hl.kind_ne) with he | he <;>
        rcases hl with h | h <;> cases he.symm.trans h
    | skip _ h => exact ih h k z rfl fun t ht => hg t (List.mem_cons_of_mem _ ht)
    | cons hs _ _ =>
      obtain ⟨t, z, hx, ht⟩ := hs.starts
      cases hx
      rcases hl with h | h <;> rw [h] at ht <;> cases ht

theorem Block.starts {x y : List Token} {b : Scope} (h : Block x b y) : ∃ t z, x = t :: z ∧ t.kind = .openBrace := by
  cases h with
  | braces ho => exact ⟨_, _, rfl, ho⟩

theorem Block.quiet {x y : List Token} {b : Scope} (h : Block x b y) : Quiet last x := by
  obtain ⟨t, z, rfl, ho⟩ := h.starts
  exact .of_kind ho (by decide)

theorem Parameters.read {x y : List Token} {ps : List String} (h : Parameters x ps y) :
    ∀ n, Returns last (parameters (σ := σ) n) x ps y := by
  induction h with
  | one ht hc =>
    intro n
    rcases n with _ | n
    · exact .shallow
    · rw [parameters]
      exact Returns.bind (.name ht) (Returns.bind (.takeIf hc) Returns.pure)
  | more ht hc _ ih =>
    intro n
    rcases n with _ | n
    · exact .shallow
    · rw [parameters]
      refine Returns.bind (.name ht) (Returns.bind (.takeIf_not (by decide) fun u hu => by simp [hu.head, hc]) ?_)
      exact Returns.bind (.expect hc) (Returns.bind (ih n) Returns.pure)

theorem Returns.bare {n : Nat} {x y : List Token} {e : Expr} (h : Returns last (expression? (σ := σ) n) x (some e) y) :
    Returns last ((return (← expression? n).map .expression) : Reading σ (Option Stmt)) x (some (.expression e)) y :=
  Returns.bind h Returns.pure

/-- A statement that is an expression is not taken for an assignment. -/
theorem Expression.read_plain {x y : List Token} {e : Expr} (h : Expression x e y) (hy : Ended y) (n : Nat) :
    Returns last (plainStatement? (σ := σ) n) x (some (.expression e)) y := by
  have hquiet : Quiet last y := hy.quiet
  have hbare := (h.read (σ := σ) hquiet n).bare
  obtain ⟨t, x, rfl, -⟩ := h.starts
  refine Returns.bind .nextKind ?_
  split
  · rename_i hk
    obtain ⟨hassign, hindex⟩ := h.not_assigns hk hy.not_assigns
    refine .bind (.peekKind (p := [t]) ?_)
    intro u hu
    rw [if_neg (hassign u hu)]
    split
    · rename_i ho
      obtain ⟨z, rfl⟩ := hu.cons (by simp [ho])
      refine .bind (.assignsElement (p := [t, u]) (.inr fun _ => rfl) ?_)
      intro r hr
      have hr : r = false := Bool.eq_false_iff.mpr fun he => hindex u z rfl ho (hr.mp he)
      rw [hr]
      exact hbare
    · exact hbare
  · exact hbare

theorem Returns.assignment {n : Nat} {t q : Token} {x y : List Token} {e : Expr} (ht : Named t) (hq : q.kind = .assign)
    (h : Returns last (expression? (σ := σ) n) x (some e) y) :
    Returns last (plainStatement? (σ := σ) n) (t :: q :: x) (some (.assign t.text e)) y := by
  refine Returns.bind .nextKind ?_
  rw [if_pos ht.kind]
  refine .bind (.peekKind (p := [t]) ?_)
  intro u hu
  rw [if_pos (by rw [hu.head, hq])]
  exact Returns.bind (.name ht) (Returns.bind (.expect hq) (Returns.bind h Returns.pure))

theorem Returns.elementAssignment {n : Nat} {t o c q : Token} {x y z : List Token} {i e : Expr} (ht : Named t)
    (ho : o.kind = .openBracket) (hi : Returns last (expression? (σ := σ) n) x (some i) (c :: q :: y))
    (hc : c.kind = .closeBracket) (hq : q.kind = .assign) (he : Returns last (expression? (σ := σ) n) y (some e) z) :
    Returns last (Grammar.elementAssignment (σ := σ) n) (t :: o :: x) (.assignElement t.text i e) z := by
  refine Returns.bind (.name ht) (Returns.bind (.expect ho) (Returns.bind (.expression hi) ?_))
  refine Returns.bind (.expect hc) (Returns.bind (.expect hq) (Returns.bind (.expression he) ?_))
  exact Returns.pure

/-- The bracket that closes the index is the one that `assignsElement` finds. -/
theorem Returns.assignElement {n : Nat} {t o c q : Token} {x y z : List Token} {i e : Expr} (ht : Named t)
    (ho : o.kind = .openBracket) (hi : Expression x i (c :: q :: y)) (hc : c.kind = .closeBracket) (hq : q.kind = .assign)
    (he : Returns last (expression? (σ := σ) n) y (some e) z) :
    Returns last (plainStatement? (σ := σ) n) (t :: o :: x) (some (.assignElement t.text i e)) z := by
  refine Returns.bind .nextKind ?_
  rw [if_pos ht.kind]
  refine .bind (.peekKind (p := [t]) ?_)
  intro u hu
  rw [if_neg (by simp [hu.head, ho]), if_pos (by rw [hu.head, ho])]
  refine .bind (.assignsElement (p := [t, o]) (.inr fun _ => rfl) ?_)
  intro r hr
  have hr : r = true := hr.mpr ⟨q, y, by rw [hi.closing_eq 0, closing_close 0 hc]; simp [closing], hq⟩
  rw [hr]
  exact Returns.bind (.elementAssignment ht ho (hi.read (.of_kind hc (by decide)) n) hc hq he) Returns.pure

/-- The condition and the block of an `if`, with no `else` after them. -/
theorem Returns.ifThen {n : Nat} {x y z : List Token} {e : Expr} {b : Scope}
    (he : Returns last (Grammar.expression (σ := σ) n .ifCondition) x e y)
    (hb : Returns last (Grammar.block (σ := σ) n) y b z) (hz : NoElse z) :
    Returns last (Grammar.conditional (σ := σ) (n + 1)) x (.ifThen e b) z := by
  rw [Grammar.conditional]
  refine Returns.bind he (Returns.bind hb ?_)
  refine .bind (.pastLayout (g := []) (x := z) (.inr fun _ => rfl) (fun _ h => by cases h) ?_)
  intro gap u hu hg _
  rw [List.nil_append] at hu ⊢
  subst hu
  refine .bind (.peekKind ?_)
  intro k hk
  split
  · rename_i hkind
    obtain ⟨v, rfl⟩ := hk.cons (by simp [hkind])
    exact absurd hkind (hz gap k v rfl hg)
  · exact Returns.pure

/-- The layout before a token that is none ends at that token. -/
theorem layout_unique {k : Token} {z v gap gap' : List Token} (h : gap ++ k :: z = gap' ++ v)
    (hg : ∀ t ∈ gap, isLayout t) (hk : ¬ isLayout k) (hg' : ∀ t ∈ gap', isLayout t)
    (hv : ∀ t, Next last v t → ¬ isLayout t) : gap = gap' ∧ k :: z = v := by
  rcases List.append_eq_append_iff.mp h with ⟨m, rfl, hm⟩ | ⟨m, rfl, rfl⟩
  · cases m with
    | nil => simpa using hm
    | cons u m =>
      obtain ⟨rfl, -⟩ := List.cons.inj hm
      exact absurd (hg' k (by simp)) hk
  · cases m with
    | nil => simp
    | cons u m =>
      have hu : isLayout u := hg u (by simp)
      exact absurd hu (hv u (.token hu.kind_ne))

theorem Returns.ifElse {n : Nat} {k : Token} {x y z u gap : List Token} {e : Expr} {b b' : Scope}
    (he : Returns last (Grammar.expression (σ := σ) n .ifCondition) x e y)
    (hb : Returns last (Grammar.block (σ := σ) n) y b (gap ++ k :: z)) (hg : ∀ t ∈ gap, isLayout t)
    (hk : k.kind = .elseWord) (hb' : Returns last (Grammar.block (σ := σ) n) z b' u) :
    Returns last (Grammar.conditional (σ := σ) (n + 1)) x (.ifElse e b b') u := by
  rw [Grammar.conditional]
  refine Returns.bind he (Returns.bind hb ?_)
  refine .bind (.pastLayout (g := []) (x := gap ++ k :: z) (.inr fun _ => rfl) (fun _ h => by cases h)
    fun gap' v hv hg' hstop => ?_)
  rw [List.nil_append] at hv ⊢
  obtain ⟨rfl, rfl⟩ := layout_unique hv hg (by unfold isLayout; rw [hk]; decide) hg' hstop
  refine .bind (.peekKind ?_)
  intro u hu
  rw [if_pos (hu.head ▸ hk)]
  exact Reads.bind (Reads.skipPast (Returns.bind hb' Returns.pure))

/-- Where an atom starts, no other statement does than a plain one. -/
theorem Returns.plain {n : Nat} {t : Token} {x y : List Token} {s : Stmt} (ht : startsAtom t.kind = true)
    (h : Returns last (plainStatement? (σ := σ) n) (t :: x) (some s) y) :
    Returns last (statement? (σ := σ) (n + 1)) (t :: x) (some s) y := by
  rw [statement?]
  refine Returns.bind .nextKind ?_
  revert ht
  cases t.kind <;> first | exact fun _ => h | exact nofun

mutual

theorem Statement.read : ∀ {x : List Token} {s : Stmt} {y : List Token}, Statement x s y → Ended y → NoElse y →
    ∀ n, Returns last (statement? (σ := σ) n) x (some s) y
  | _, _, _, _, _, _, 0 => Returns.shallow
  | _, _, _, .declare hl ht hq he, hy, _, n + 1 => by
    rw [statement?]
    refine Returns.bind .nextKind ?_
    rw [hl]
    obtain ⟨t, z, rfl, hs⟩ := he.starts
    refine Returns.bind .take (Returns.bind (.name ht) (Returns.bind (.expect hq) ?_))
    refine Returns.bind (.takeIf_not (by decide) fun u hu => ?_) (Returns.bind (he.read hy.quiet n) Returns.pure)
    rw [hu.head]
    intro hk
    rw [hk] at hs
    cases hs
  | _, _, _, .declareArray hl ht hq ho he hc, _, _, n + 1 => by
    rw [statement?]
    refine Returns.bind .nextKind ?_
    rw [hl]
    refine Returns.bind .take (Returns.bind (.name ht) (Returns.bind (.expect hq) (Returns.bind (.takeIf ho) ?_)))
    refine Returns.bind (.expression (he.read (.of_kind hc (by decide)) n)) (Returns.bind (.expect hc) Returns.pure)
  | _, _, _, .assign ht hq he, hy, _, n + 1 =>
    .plain (by rw [ht.kind]; rfl) (.assignment ht hq (he.read hy.quiet n))
  | _, _, _, .assignElement ht ho hi hc hq he, hy, _, n + 1 =>
    .plain (by rw [ht.kind]; rfl) (.assignElement ht ho hi hc hq (he.read hy.quiet n))
  | _, _, _, .ifThen hi he hb, hy, hz, n + 1 => by
    rw [statement?]
    refine Returns.bind .nextKind ?_
    rw [hi]
    refine Returns.bind .take (Returns.bind ?_ Returns.pure)
    cases n with
    | zero => exact .shallow
    | succ n => exact .ifThen (.expression (he.read hb.quiet n)) (hb.read n) hz
  | _, _, _, .ifElse hi he hb hg hk hb', hy, _, n + 1 => by
    rw [statement?]
    refine Returns.bind .nextKind ?_
    rw [hi]
    refine Returns.bind .take (Returns.bind ?_ Returns.pure)
    cases n with
    | zero => exact .shallow
    | succ n => exact .ifElse (.expression (he.read hb.quiet n)) (hb.read n) hg hk (hb'.read n)
  | _, _, _, .whileLoop hw he hb, _, _, n + 1 => by
    rw [statement?]
    refine Returns.bind .nextKind ?_
    rw [hw]
    refine Returns.bind .take (Returns.bind (.expression (he.read hb.quiet n)) (Returns.bind (hb.read n) Returns.pure))
  | _, _, _, .define hd ht ho hp hb, _, _, n + 1 => by
    rw [statement?]
    refine Returns.bind .nextKind ?_
    rw [hd]
    refine Returns.bind .take (Returns.bind (.name ht) (Returns.bind (.expect ho) ?_))
    exact Returns.bind (hp.read n) (Returns.bind (hb.read n) Returns.pure)
  | _, _, _, .returns hr, hy, _, n + 1 => by
    rw [statement?]
    refine Returns.bind .nextKind ?_
    rw [hr]
    refine Returns.bind .take (Returns.bind (Reads.bind (Reads.nextKind fun u hu => ?_)) Returns.pure)
    rw [if_pos (hy.endsStatement hu)]
    exact Returns.pure
  | _, _, _, .returnsValue hr he, hy, _, n + 1 => by
    rw [statement?]
    refine Returns.bind .nextKind ?_
    rw [hr]
    refine Returns.bind .take (Returns.bind ?_ Returns.pure)
    obtain ⟨t, z, rfl, hs⟩ := he.starts
    refine Returns.bind .nextKind ?_
    rw [if_neg (by intro hk; revert hs hk; cases t.kind <;> decide)]
    exact Returns.bind (.expression (he.read hy.quiet n)) Returns.pure
  | _, _, _, .block hb, _, _, n + 1 => by
    have hread : Returns last (block (σ := σ) n) _ _ _ := hb.read n
    obtain ⟨t, z, rfl, ho⟩ := hb.starts
    rw [statement?]
    refine Returns.bind .nextKind ?_
    rw [ho]
    exact Returns.bind hread Returns.pure
  | _, _, _, .expression he, hy, _, n + 1 => by
    have hread : Returns last (plainStatement? (σ := σ) n) _ _ _ := he.read_plain hy n
    obtain ⟨t, z, rfl, ht⟩ := he.starts
    exact .plain ht hread

theorem Block.read : ∀ {x : List Token} {b : Scope} {y : List Token}, Block x b y →
    ∀ n, Returns last (block (σ := σ) n) x b y
  | _, _, _, _, 0 => Returns.shallow
  | _, _, _, .braces ho h hc, n + 1 => by
    rw [Grammar.block]
    refine Returns.bind (.expect ho) (Returns.bind (h.read (fun u hu => .inr ?_) n) ?_)
    · rw [hu.head, hc]
    · exact Returns.bind (.expect hc) Returns.pure

theorem Statements.read : ∀ {x : List Token} {b : Scope} {y : List Token}, Statements x b y → ScopeEnds last y →
    ∀ n, Returns last (scope (σ := σ) n) x b y
  | _, _, _, _, _, 0 => Returns.shallow
  | _, _, _, .nil, hy, n + 1 => by
    rw [Grammar.scope]
    refine Reads.bind (Reads.nextKind ?_)
    intro t ht
    have hk : t.kind = .endOfText ∨ t.kind.closesScope = true := (hy t ht).imp_right fun h => by rw [h]; rfl
    rw [if_pos hk]
    exact Returns.pure
  | _, _, _, .skip hs h, hy, n + 1 => by
    rw [Grammar.scope]
    refine Returns.bind .nextKind ?_
    rw [if_neg (by intro hk; revert hs hk; cases Token.kind _ <;> decide), if_pos hs]
    exact Returns.bind .take (h.read hy n)
  | _, _, _, .cons hs he h, hy, n + 1 => by
    have hread : Returns last (statement? (σ := σ) n) _ _ _ := hs.read he (h.noElse hy) n
    obtain ⟨t, z, rfl, ht⟩ := hs.starts
    rw [Grammar.scope]
    refine Returns.bind .nextKind ?_
    rw [if_neg (by intro hk; revert ht hk; cases t.kind <;> decide),
      if_neg (by intro hk; revert ht hk; cases t.kind <;> decide)]
    refine Returns.bind hread (.bind (.nextKind ?_))
    intro u hu
    rw [if_pos (he.endsStatement hu)]
    exact Returns.bind (h.read hy n) Returns.pure

end

/-! ## Programs -/

theorem Program.read {x : List Token} {b : Scope} (h : Program x b) (n : Nat) :
    Returns last (wholeScope (σ := σ) n) x b [] := by
  have hend : ScopeEnds last [] := by
    intro t ht
    cases ht with
    | final _ hk => exact .inl hk
  refine Returns.bind (Statements.read h hend n) (.bind (.next ?_))
  intro t ht
  rw [if_pos]
  · exact Returns.pure
  · cases ht with
    | final _ hk => exact hk

end ScriptLang.Grammar
