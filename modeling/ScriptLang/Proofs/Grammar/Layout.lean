/-
  ScriptLang.Proofs.Grammar.Layout — what the separators between tokens may become.

  `Respaced z x y`: `y` has the tokens of `x`, with other runs of separators between them, and
  ends in `z` where `x` ends. No run comes or goes, and none that was layout alone gets a
  semicolon, which no `else` may follow. A derivation looks at separators in two places, after
  a statement and before an `else`, and both allow any such change.
  - `Statements.respaced`: what derives statements still does after it.
  - `Lookahead.parse_relaid`: so sources that differ in layout give the same program.
  - `Program.append`: programs with a separator between them derive their statements in a row.
-/

import ScriptLang.Proofs.Grammar.Acceptance

namespace ScriptLang

open Grammar

namespace Grammar

open Token (Kind)

/-- Tokens that may stand between two statements. -/
abbrev Separators (r : List Token) : Prop := ∀ t ∈ r, t.kind.isSeparator = true

inductive Respaced (z : List Token) : List Token → List Token → Prop
  /-- The run at the end, if there is one. -/
  | last {r : List Token} : Separators r → Ended z → Respaced z r z
  | token {t : Token} {x y : List Token} : t.kind.isSeparator = false → Respaced z x y → Respaced z (t :: x) (t :: y)
  /-- A run of one separator or more, and another in its place. -/
  | run {t u : Token} {r q x y : List Token} : Separators (t :: r) → Separators (u :: q) →
      ((∀ s ∈ t :: r, isLayout s) → ∀ s ∈ u :: q, isLayout s) → Respaced z x y →
      Respaced z (t :: (r ++ x)) (u :: (q ++ y))

/-- The same, with any separators in front. -/
inductive Led (z : List Token) : List Token → List Token → Prop
  | here {x y : List Token} : Respaced z x y → Led z x y
  | left {t : Token} {x y : List Token} : t.kind.isSeparator = true → Led z x y → Led z (t :: x) y
  | right {t : Token} {x y : List Token} : t.kind.isSeparator = true → Led z x y → Led z x (t :: y)

section

variable {t : Token} {r x x' y z : List Token}

theorem Led.before {q : List Token} (hr : Separators r) (hq : Separators q) (h : Led z x y) : Led z (r ++ x) (q ++ y) := by
  induction r with
  | cons t r ih =>
    obtain ⟨ht, hr⟩ := List.forall_mem_cons.mp hr
    exact .left ht (ih hr)
  | nil =>
    induction q with
    | nil => exact h
    | cons u q ih =>
      obtain ⟨hu, hq⟩ := List.forall_mem_cons.mp hq
      exact .right hu (ih hq)

namespace Respaced

/-- A token that is no separator stays where it is. -/
theorem of_token (h : Respaced z (t :: x) x') (ht : t.kind.isSeparator = false) : ∃ y, x' = t :: y ∧ Respaced z x y := by
  have clash {r : List Token} (hr : Separators (t :: r)) : False := by
    rw [hr t (List.mem_cons_self ..)] at ht
    cases ht
  cases h with
  | last hr _ => exact (clash hr).elim
  | token _ h => exact ⟨_, rfl, h⟩
  | run hr => exact (clash hr).elim

theorem of_kind {k : Kind} (h : Respaced z (t :: x) x') (ht : t.kind = k) (hk : k.isSeparator = false) :
    ∃ y, x' = t :: y ∧ Respaced z x y := h.of_token (ht ▸ hk)

/-- Nothing changes but for what is put after the tokens. -/
theorem append (x : List Token) (hz : Ended z) : Respaced z x (x ++ z) := by
  induction x with
  | nil => exact .last nofun hz
  | cons t x ih =>
    by_cases ht : t.kind.isSeparator = true
    · have hs : Separators [t] := List.forall_mem_singleton.mpr ht
      exact .run (r := []) (q := []) hs hs id ih
    · exact .token (Bool.eq_false_iff.mpr ht) ih

/-- Layout before a token that is no separator is replaced by layout. -/
theorem of_gap {k : Token} {g : List Token} (h : Respaced z (g ++ k :: x) x') (hg : ∀ t ∈ g, isLayout t)
    (hk : k.kind.isSeparator = false) : ∃ q y, x' = q ++ k :: y ∧ (∀ t ∈ q, isLayout t) ∧ Respaced z x y := by
  have not_mem {r : List Token} (hr : Separators r) : k ∉ r := fun hm => by
    rw [hr k hm] at hk
    cases hk
  generalize hu : g ++ k :: x = u at h
  induction h generalizing g with
  | last hr => exact absurd (hu ▸ List.mem_append_right _ (List.mem_cons_self ..)) (not_mem hr)
  | @token t v w ht h _ =>
    cases g with
    | nil =>
      cases hu
      exact ⟨[], w, rfl, nofun, h⟩
    | cons s g =>
      cases hu
      have hs := (hg t (List.mem_cons_self ..)).isSeparator
      rw [ht] at hs
      cases hs
  | @run t u r q v w hr _ hlayout _ ih =>
    cases g with
    | nil =>
      cases hu
      exact absurd (List.mem_cons_self ..) (not_mem hr)
    | cons s g =>
      obtain ⟨rfl, hv⟩ := List.cons.inj hu
      obtain ⟨hs, hg⟩ := List.forall_mem_cons.mp hg
      -- The run that is replaced is a part of the gap, since `k` is no separator.
      obtain ⟨m, rfl, rfl⟩ : ∃ m, g = r ++ m ∧ m ++ k :: x = v := by
        rcases List.append_eq_append_iff.mp hv with ⟨m, rfl, hm⟩ | ⟨m, rfl, rfl⟩
        · cases m with
          | nil => exact ⟨[], by simp, hm⟩
          | cons u m =>
            obtain ⟨rfl, -⟩ := List.cons.inj hm
            exact absurd (by simp) (not_mem hr)
        · exact ⟨m, rfl, rfl⟩
      obtain ⟨hr', hm⟩ := List.forall_mem_append.mp hg
      obtain ⟨q', y, rfl, hq', hy⟩ := ih hm rfl
      have hq := hlayout (List.forall_mem_cons.mpr ⟨hs, hr'⟩)
      exact ⟨u :: q ++ q', y, by simp, List.forall_mem_append.mpr ⟨hq, hq'⟩, hy⟩

end Respaced

theorem Ended.respaced (h : Ended x) (hx : Respaced z x y) : Ended y := by
  cases hx with
  | last _ hz => exact hz
  | token ht =>
    cases h with
    | separator hs => rw [ht] at hs; cases hs
  | run _ hq => exact .separator (hq _ (List.mem_cons_self ..))

namespace Led

/-- A separator in front of the tokens may go. -/
theorem tail (h : Led z (t :: x) x') (ht : t.kind.isSeparator = true) : Led z x x' := by
  generalize hu : t :: x = u at h
  induction h with
  | left _ h => cases hu; exact h
  | right hs _ ih => exact .right hs (ih hu)
  | here h =>
    subst hu
    cases h with
    | last hr hz => exact .here (.last (List.forall_mem_cons.mp hr).2 hz)
    | token hn => rw [hn] at ht; cases ht
    | run hr hq _ h => exact .before (List.forall_mem_cons.mp hr).2 hq (.here h)

/-- In front of a token that is no separator there is a run on the other side. -/
theorem of_token (h : Led z (t :: x) x') (ht : t.kind.isSeparator = false) :
    ∃ r y, x' = r ++ t :: y ∧ Separators r ∧ Respaced z x y := by
  generalize hu : t :: x = u at h
  induction h with
  | left hs => cases hu; rw [ht] at hs; cases hs
  | @right s _ _ hs _ ih =>
    obtain ⟨r, y, rfl, hr, hy⟩ := ih hu
    exact ⟨s :: r, y, rfl, List.forall_mem_cons.mpr ⟨hs, hr⟩, hy⟩
  | here h =>
    subst hu
    obtain ⟨y, rfl, hy⟩ := h.of_token ht
    exact ⟨[], y, rfl, nofun, hy⟩

theorem of_statement {s : Stmt} (h : Led z x x') (hs : Statement x s y) :
    ∃ r v, x' = r ++ v ∧ Separators r ∧ Respaced z x v := by
  obtain ⟨t, u, rfl, ht⟩ := hs.starts
  have hn : t.kind.isSeparator = false := by
    revert ht
    cases t.kind <;> decide
  obtain ⟨r, v, rfl, hr, hv⟩ := h.of_token hn
  exact ⟨r, t :: v, rfl, hr, .token hn hv⟩

theorem of_nil (h : Led z [] x') : ∃ r, x' = r ++ z ∧ Separators r := by
  generalize hu : [] = u at h
  induction h with
  | left => cases hu
  | @right s _ _ hs _ ih =>
    obtain ⟨r, rfl, hr⟩ := ih hu
    exact ⟨s :: r, rfl, List.forall_mem_cons.mpr ⟨hs, hr⟩⟩
  | here h =>
    subst hu
    cases h with
    | last => exact ⟨[], rfl, nofun⟩

end Led

theorem not_separator_of_unary {op : UnaryOp} (h : UnaryOp.ofKind? t.kind = some op) : t.kind.isSeparator = false := by
  revert h
  cases t.kind <;> first | exact fun _ => rfl | exact nofun

theorem not_separator_of_binary {op : BinaryOp} (h : BinaryOp.ofKind? t.kind = some op) : t.kind.isSeparator = false := by
  revert h
  cases t.kind <;> first | exact fun _ => rfl | exact nofun

theorem Constant.not_separator {v : Literal} (h : Constant t v) : t.kind.isSeparator = Bool.false := by
  cases h <;> simp only [*] <;> rfl

end

/-! ## Derivations -/

section

variable {z : List Token}

mutual

theorem Atom.respaced : ∀ {x x' y : List Token} {e : Expr}, Atom x e y → Respaced z x x' → ∃ y', Atom x' e y' ∧ Respaced z y y'
  | _, _, _, _, .inner ho h hc, hx => by
    obtain ⟨x, rfl, hx₁⟩ := hx.of_kind ho rfl
    obtain ⟨u, h', hu⟩ := h.respaced hx₁
    obtain ⟨y, rfl, hy⟩ := hu.of_kind hc rfl
    exact ⟨y, .inner ho h' hc, hy⟩
  | _, _, _, _, .unary hop h, hx => by
    obtain ⟨x, rfl, hx₁⟩ := hx.of_token (not_separator_of_unary hop)
    obtain ⟨y, h', hy⟩ := h.respaced hx₁
    exact ⟨y, .unary hop h', hy⟩
  | _, _, _, _, .var ht, hx => by
    obtain ⟨x, rfl, hx₁⟩ := hx.of_kind ht.kind rfl
    exact ⟨x, .var ht, hx₁⟩
  | _, _, _, _, .call ht ho h, hx => by
    obtain ⟨x, rfl, hx₁⟩ := hx.of_kind ht.kind rfl
    obtain ⟨x, rfl, hx₂⟩ := hx₁.of_kind ho rfl
    obtain ⟨y, h', hy⟩ := h.respaced hx₂
    exact ⟨y, .call ht ho h', hy⟩
  | _, _, _, _, .element ht ho h hc, hx => by
    obtain ⟨x, rfl, hx₁⟩ := hx.of_kind ht.kind rfl
    obtain ⟨x, rfl, hx₂⟩ := hx₁.of_kind ho rfl
    obtain ⟨u, h', hu⟩ := h.respaced hx₂
    obtain ⟨y, rfl, hy⟩ := hu.of_kind hc rfl
    exact ⟨y, .element ht ho h' hc, hy⟩
  | _, _, _, _, .literal hv, hx => by
    obtain ⟨x, rfl, hx₁⟩ := hx.of_token hv.not_separator
    exact ⟨x, .literal hv, hx₁⟩

theorem Expression.respaced : ∀ {x x' y : List Token} {e : Expr}, Expression x e y → Respaced z x x' →
    ∃ y', Expression x' e y' ∧ Respaced z y y'
  | _, _, _, _, .chain ha hc hg, hx => by
    obtain ⟨u, ha', hu⟩ := ha.respaced hx
    obtain ⟨y, hc', hy⟩ := hc.respaced hu
    exact ⟨y, .chain ha' hc' hg, hy⟩

theorem Chain.respaced : ∀ {x x' y : List Token} {ops : List Link}, Chain x ops y → Respaced z x x' →
    ∃ y', Chain x' ops y' ∧ Respaced z y y'
  | _, _, _, _, .nil, hx => ⟨_, .nil, hx⟩
  | _, _, _, _, .cons hop ha hc, hx => by
    obtain ⟨x, rfl, hx₁⟩ := hx.of_token (not_separator_of_binary hop)
    obtain ⟨u, ha', hu⟩ := ha.respaced hx₁
    obtain ⟨y, hc', hy⟩ := hc.respaced hu
    exact ⟨y, .cons hop ha' hc', hy⟩

theorem Arguments.respaced : ∀ {x x' y : List Token} {es : List Expr}, Arguments x es y → Respaced z x x' →
    ∃ y', Arguments x' es y' ∧ Respaced z y y'
  | _, _, _, _, .one h hc, hx => by
    obtain ⟨u, h', hu⟩ := h.respaced hx
    obtain ⟨y, rfl, hy⟩ := hu.of_kind hc rfl
    exact ⟨y, .one h' hc, hy⟩
  | _, _, _, _, .more h hc hes, hx => by
    obtain ⟨u, h', hu⟩ := h.respaced hx
    obtain ⟨u, rfl, hu₁⟩ := hu.of_kind hc rfl
    obtain ⟨y, hes', hy⟩ := hes.respaced hu₁
    exact ⟨y, .more h' hc hes', hy⟩

end

theorem Parameters.respaced {x x' y : List Token} {ps : List String} (h : Parameters x ps y) (hx : Respaced z x x') :
    ∃ y', Parameters x' ps y' ∧ Respaced z y y' := by
  induction h generalizing x' with
  | one ht hc =>
    obtain ⟨x, rfl, hx₁⟩ := hx.of_kind ht.kind rfl
    obtain ⟨y, rfl, hy⟩ := hx₁.of_kind hc rfl
    exact ⟨y, .one ht hc, hy⟩
  | more ht hc _ ih =>
    obtain ⟨x, rfl, hx₁⟩ := hx.of_kind ht.kind rfl
    obtain ⟨x, rfl, hx₂⟩ := hx₁.of_kind hc rfl
    obtain ⟨y, h', hy⟩ := ih hx₂
    exact ⟨y, .more ht hc h', hy⟩

/-- Statements in front of other statements. -/
theorem Statements.append : ∀ {x y u : List Token} {b b' : Scope}, Statements x b y → Statements y b' u →
    Statements x (b ++ b') u
  | _, _, _, _, _, .nil, h' => h'
  | _, _, _, _, _, .skip hs h, h' => .skip hs (h.append h')
  | _, _, _, _, _, .cons hs he h, h' => .cons hs he (h.append h')

theorem Statements.separators {r y : List Token} (hr : Separators r) : Statements (r ++ y) [] y := by
  induction r with
  | nil => exact .nil
  | cons t r ih =>
    obtain ⟨ht, hr⟩ := List.forall_mem_cons.mp hr
    exact .skip ht (ih hr)

theorem Statements.trailed {x r y : List Token} {b : Scope} (h : Statements x b (r ++ y)) (hr : Separators r) :
    Statements x b y := by
  have := h.append (.separators hr)
  rwa [List.append_nil] at this

mutual

theorem Statement.respaced : ∀ {x x' y : List Token} {s : Stmt}, Statement x s y → Respaced z x x' →
    ∃ y', Statement x' s y' ∧ Respaced z y y'
  | _, _, _, _, .declare hl ht hq h, hx => by
    obtain ⟨x, rfl, hx₁⟩ := hx.of_kind hl rfl
    obtain ⟨x, rfl, hx₂⟩ := hx₁.of_kind ht.kind rfl
    obtain ⟨x, rfl, hx₃⟩ := hx₂.of_kind hq rfl
    obtain ⟨y, h', hy⟩ := h.respaced hx₃
    exact ⟨y, .declare hl ht hq h', hy⟩
  | _, _, _, _, .declareArray hl ht hq ho h hc, hx => by
    obtain ⟨x, rfl, hx₁⟩ := hx.of_kind hl rfl
    obtain ⟨x, rfl, hx₂⟩ := hx₁.of_kind ht.kind rfl
    obtain ⟨x, rfl, hx₃⟩ := hx₂.of_kind hq rfl
    obtain ⟨x, rfl, hx₄⟩ := hx₃.of_kind ho rfl
    obtain ⟨u, h', hu⟩ := h.respaced hx₄
    obtain ⟨y, rfl, hy⟩ := hu.of_kind hc rfl
    exact ⟨y, .declareArray hl ht hq ho h' hc, hy⟩
  | _, _, _, _, .assign ht hq h, hx => by
    obtain ⟨x, rfl, hx₁⟩ := hx.of_kind ht.kind rfl
    obtain ⟨x, rfl, hx₂⟩ := hx₁.of_kind hq rfl
    obtain ⟨y, h', hy⟩ := h.respaced hx₂
    exact ⟨y, .assign ht hq h', hy⟩
  | _, _, _, _, .assignElement ht ho hi hc hq h, hx => by
    obtain ⟨x, rfl, hx₁⟩ := hx.of_kind ht.kind rfl
    obtain ⟨x, rfl, hx₂⟩ := hx₁.of_kind ho rfl
    obtain ⟨u, hi', hu⟩ := hi.respaced hx₂
    obtain ⟨u, rfl, hu₁⟩ := hu.of_kind hc rfl
    obtain ⟨u, rfl, hu₂⟩ := hu₁.of_kind hq rfl
    obtain ⟨y, h', hy⟩ := h.respaced hu₂
    exact ⟨y, .assignElement ht ho hi' hc hq h', hy⟩
  | _, _, _, _, .ifThen hi h hb, hx => by
    obtain ⟨x, rfl, hx₁⟩ := hx.of_kind hi rfl
    obtain ⟨u, h', hu⟩ := h.respaced hx₁
    obtain ⟨y, hb', hy⟩ := hb.respaced hu
    exact ⟨y, .ifThen hi h' hb', hy⟩
  | _, _, _, _, .ifElse hi h hb hg hk hb₂, hx => by
    obtain ⟨x, rfl, hx₁⟩ := hx.of_kind hi rfl
    obtain ⟨u, h', hu⟩ := h.respaced hx₁
    obtain ⟨u, hb', hu⟩ := hb.respaced hu
    obtain ⟨g, u, rfl, hg', hu₁⟩ := hu.of_gap hg (by rw [hk]; rfl)
    obtain ⟨y, hb₂', hy⟩ := hb₂.respaced hu₁
    exact ⟨y, .ifElse hi h' hb' hg' hk hb₂', hy⟩
  | _, _, _, _, .whileLoop hw h hb, hx => by
    obtain ⟨x, rfl, hx₁⟩ := hx.of_kind hw rfl
    obtain ⟨u, h', hu⟩ := h.respaced hx₁
    obtain ⟨y, hb', hy⟩ := hb.respaced hu
    exact ⟨y, .whileLoop hw h' hb', hy⟩
  | _, _, _, _, .define hd ht ho hp hb, hx => by
    obtain ⟨x, rfl, hx₁⟩ := hx.of_kind hd rfl
    obtain ⟨x, rfl, hx₂⟩ := hx₁.of_kind ht.kind rfl
    obtain ⟨x, rfl, hx₃⟩ := hx₂.of_kind ho rfl
    obtain ⟨u, hp', hu⟩ := hp.respaced hx₃
    obtain ⟨y, hb', hy⟩ := hb.respaced hu
    exact ⟨y, .define hd ht ho hp' hb', hy⟩
  | _, _, _, _, .returns hr, hx => by
    obtain ⟨x, rfl, hx₁⟩ := hx.of_kind hr rfl
    exact ⟨x, .returns hr, hx₁⟩
  | _, _, _, _, .returnsValue hr h, hx => by
    obtain ⟨x, rfl, hx₁⟩ := hx.of_kind hr rfl
    obtain ⟨y, h', hy⟩ := h.respaced hx₁
    exact ⟨y, .returnsValue hr h', hy⟩
  | _, _, _, _, .block hb, hx => by
    obtain ⟨y, hb', hy⟩ := hb.respaced hx
    exact ⟨y, .block hb', hy⟩
  | _, _, _, _, .expression h, hx => by
    obtain ⟨y, h', hy⟩ := h.respaced hx
    exact ⟨y, .expression h', hy⟩

theorem Block.respaced : ∀ {x x' y : List Token} {b : Scope}, Block x b y → Respaced z x x' →
    ∃ y', Block x' b y' ∧ Respaced z y y'
  | _, _, _, _, .braces ho h hc, hx => by
    obtain ⟨x, rfl, hx₁⟩ := hx.of_kind ho rfl
    obtain ⟨u, h', hu⟩ := h.respaced (.here hx₁)
    obtain ⟨r, y, rfl, hr, hy⟩ := hu.of_token (by rw [hc]; rfl)
    exact ⟨y, .braces ho (h'.trailed hr) hc, hy⟩

theorem Statements.respaced : ∀ {x x' y : List Token} {b : Scope}, Statements x b y → Led z x x' →
    ∃ y', Statements x' b y' ∧ Led z y y'
  | _, _, _, _, .nil, hx => ⟨_, .nil, hx⟩
  | _, _, _, _, .skip hs h, hx => h.respaced (hx.tail hs)
  | _, _, _, _, .cons hs he h, hx => by
    obtain ⟨r, v, rfl, hr, hv⟩ := hx.of_statement hs
    obtain ⟨u, hs', hu⟩ := hs.respaced hv
    obtain ⟨y, h', hy⟩ := h.respaced (.here hu)
    exact ⟨y, (Statements.separators hr).append (.cons hs' (he.respaced hu) h'), hy⟩

end

end

/-! ## Programs -/

/-- The same tokens in other layout. A run of separators between two tokens gives way to a run of
    one or more, with semicolons only if there were some; before the first token and after the
    last there may be any run of separators, or none. -/
def Relaid (w w' : List Token) : Prop := ∃ z, Separators z ∧ Led z w w'

theorem Program.relaid {w w' : List Token} {b : Scope} (hb : Program w b) (h : Relaid w w') : Program w' b := by
  obtain ⟨z, hz, hw⟩ := h
  obtain ⟨y, hb', hy⟩ := Statements.respaced hb hw
  obtain ⟨r, rfl, hr⟩ := hy.of_nil
  rw [← List.append_nil (r ++ z)] at hb'
  exact hb'.trailed (List.forall_mem_append.mpr ⟨hr, hz⟩)

/-- The statements of one program and, after a separator, those of another. -/
theorem Program.append {w w' : List Token} {b b' : Scope} {t : Token} (hb : Program w b)
    (ht : t.kind.isSeparator = true) (hb' : Program w' b') : Program (w ++ t :: w') (b ++ b') := by
  obtain ⟨y, hw, hy⟩ := Statements.respaced hb (.here (.append w (.separator ht)))
  obtain ⟨r, rfl, hr⟩ := hy.of_nil
  exact hw.append ((Statements.separators hr).append (.skip ht hb'))

end Grammar

/-- Sources whose tokens differ in layout alone give the same program. -/
theorem Lookahead.parse_relaid {σ τ : Type} [TokenStream σ] [TokenStream τ] {s : Lookahead σ} {s' : Lookahead τ}
    {w w' : List Token} {e u : Token} {b : Scope} (hs : Gives TokenStream.pull (TokenStream.rewind s.source) w (.ok e))
    (hs' : Gives TokenStream.pull (TokenStream.rewind s'.source) w' (.ok u)) (hw : Relaid w w')
    (hb : s.parse.1 = .ok b) : s'.parse.1 = .ok b :=
  (((parse_ok_iff_program hs).1 b).mp hb).relaid hw |>.parse_eq hs'

/-- From `if a {} ⏎ else {;};` to `if a {} # ⏎ else {⏎}`. -/
theorem parse_relaid_else : ∃ w w' : List Token, Relaid w w' ∧
    (Lookahead.ofSource (Replay.ofItems (w.map .ok))).parse.1 = .ok [.ifElse (.var "a") [] []] ∧
    (Lookahead.ofSource (Replay.ofItems (w'.map .ok))).parse.1 = .ok [.ifElse (.var "a") [] []] := by
  let w : List Token := [⟨.ifWord, "if"⟩, ⟨.name, "a"⟩, ⟨.openBrace, "\x7b"⟩, ⟨.closeBrace, "\x7d"⟩, ⟨.newline, "\n"⟩,
    ⟨.elseWord, "else"⟩, ⟨.openBrace, "\x7b"⟩, ⟨.semicolon, ";"⟩, ⟨.closeBrace, "\x7d"⟩, ⟨.semicolon, ";"⟩]
  let w' : List Token := [⟨.ifWord, "if"⟩, ⟨.name, "a"⟩, ⟨.openBrace, "\x7b"⟩, ⟨.closeBrace, "\x7d"⟩, ⟨.comment, "#"⟩,
    ⟨.newline, "\n"⟩, ⟨.elseWord, "else"⟩, ⟨.openBrace, "\x7b"⟩, ⟨.newline, "\n"⟩, ⟨.closeBrace, "\x7d"⟩]
  have newline : Separators [⟨.newline, "\n"⟩] := by decide
  have semicolon : Separators [⟨.semicolon, ";"⟩] := by decide
  have comment : Separators [⟨.comment, "#"⟩, ⟨.newline, "\n"⟩] := by decide
  have layout : ∀ t ∈ [⟨.comment, "#"⟩, ⟨.newline, "\n"⟩], isLayout t := by simp [isLayout]
  have relaid : Relaid w w' := by
    refine ⟨[], nofun, .here (.token rfl (.token rfl (.token rfl (.token rfl ?_))))⟩
    refine .run (r := []) (q := [_]) newline comment (fun _ => layout) (.token rfl (.token rfl ?_))
    refine .run (r := []) (q := []) semicolon newline (fun _ => List.forall_mem_singleton.mpr (.inl rfl)) (.token rfl ?_)
    exact .last semicolon .nil
  have terse : (Lookahead.ofSource (Replay.ofItems (w.map .ok))).parse.1 = .ok [.ifElse (.var "a") [] []] := by rfl
  refine ⟨w, w', relaid, terse, Lookahead.parse_relaid (e := Token.endOfText) (u := Token.endOfText) ?_ ?_ relaid terse⟩
  · repeat refine .token rfl nofun ?_
    exact .final rfl rfl
  · repeat refine .token rfl nofun ?_
    exact .final rfl rfl

end ScriptLang
