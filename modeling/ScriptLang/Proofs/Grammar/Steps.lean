/-
  ScriptLang.Proofs.Grammar.Steps — one name, one literal, and looking ahead.

  `Maybe R x`: the end of a reader that may find nothing. It gives a value by the rule `R`,
  or nothing, and then it has taken nothing. `closing depth x`: what comes in `x` after the
  bracket that closes the outermost of `depth` open ones.
  - `Reads.pastLayout`: the place found is that of the first token that is no layout.
  - `Reads.assignsElement`: the answer is whether `closing` leaves an equals sign in front.
  Neither takes anything, and each needs a depth of no more than the tokens ahead.
-/

import ScriptLang.Proofs.Grammar.Derivation
import ScriptLang.Proofs.Stream.Ahead

namespace ScriptLang

open Grammar
open Token (Kind)

variable {σ α : Type} [TokenStream σ] {last : Except Fault Token}

/-- What a reader that may find nothing ends in. -/
def Maybe (R : List Token → α → List Token → Prop) (x : List Token) : Option α → List Token → Prop
  | some a, y => R x a y
  | none, y => y = x

theorem Grammar.Constant.kind_mem {t : Token} {v : Literal} (h : Constant t v) :
    t.kind ∈ [Kind.emptyWord, .trueWord, .falseWord, .string, .number, .date] := by
  cases h <;> simp [*]

theorem Grammar.Constant.kind_ne {t : Token} {v : Literal} {k : Kind} (h : Constant t v)
    (hk : k ∉ [Kind.emptyWord, .trueWord, .falseWord, .string, .number, .date]) : t.kind ≠ k :=
  fun he => hk (he ▸ h.kind_mem)

theorem Grammar.Constant.not_unary {t : Token} {v : Literal} (h : Constant t v) : UnaryOp.ofKind? t.kind = none := by
  cases h <;> simp [*, UnaryOp.ofKind?]

/-- Nothing of a scope is next: the text is over, or a brace closes the scope. -/
def Grammar.ScopeEnds (last : Except Fault Token) (x : List Token) : Prop :=
  ∀ t, Next last x t → t.kind = .endOfText ∨ t.kind = .closeBrace

theorem Grammar.Ended.of_next {x : List Token} {t : Token} (h : Next last x t) (hk : t.kind.endsStatement = true) :
    Ended x := by
  cases h with
  | token hn =>
    rw [Kind.endsStatement, Bool.or_eq_true, beq_iff_eq] at hk
    exact .separator (hk.resolve_right hn)
  | final => exact .nil

theorem Grammar.Ended.endsStatement {x : List Token} {t : Token} (h : Ended x) (ht : Next last x t) :
    t.kind.endsStatement = true := by
  cases h with
  | nil => cases ht with | final _ he => rw [he]; rfl
  | separator hs => rw [ht.head, Kind.endsStatement, hs, Bool.true_or]

/-- No equals sign and no opening bracket ends a statement. -/
theorem Grammar.Ended.not_assigns {x : List Token} (h : Ended x) :
    ∀ t, Next last x t → t.kind ≠ .assign ∧ t.kind ≠ .openBracket := by
  intro t ht
  have hs := h.endsStatement ht
  constructor <;> intro he <;> rw [he] at hs <;> cases hs

theorem Grammar.literalOf_error {t : Token} {f : Fault} (h : literalOf t = .error f) : ∃ form, f = .malformed t form := by
  unfold literalOf at h
  repeat' split at h
  all_goals cases h
  all_goals exact ⟨_, rfl⟩

namespace Reads

variable {x : List Token} {E : Fault → List Token → Prop} {w : Expectation}

theorem name? {Q : Option String → List Token → Prop} (yes : ∀ t y, x = t :: y → Named t → Q (some t.text) y)
    (improper : ∀ t y, x = t :: y → t.kind = .name → isProperName t.text = false → E (.unexpected .properName t) y)
    (no : ∀ t, Next last x t → t.kind ≠ .name → Q none x) : Reads last (name? (σ := σ)) x Q E := by
  refine .bind (.nextKind ?_)
  intro t ht
  split
  · rename_i hk
    obtain ⟨y, rfl⟩ := ht.cons (by simp [hk])
    refine .bind (.take ?_)
    split
    · exact .pure (yes t y rfl ⟨hk, ‹_›⟩)
    · exact .throw (improper t y rfl hk (Bool.eq_false_iff.mpr ‹_›))
  · exact .pure (no t ht ‹_›)

theorem name {Q : String → List Token → Prop} (yes : ∀ t y, x = t :: y → Named t → Q t.text y)
    (improper : ∀ t y, x = t :: y → t.kind = .name → isProperName t.text = false → E (.unexpected .properName t) y)
    (no : ∀ t, Next last x t → t.kind ≠ .name → E (.unexpected w t) x) : Reads last (name (σ := σ) w) x Q E := by
  refine .bind (.name? (fun t y hx ht => ?_) improper fun t ht hk => ?_)
  · exact .require (fun a ha => Option.some.inj ha ▸ yes t y hx ht) fun h => by cases h
  · exact .require (fun a ha => by cases ha) fun _ u hu => hu.unique ht ▸ no t ht hk

theorem literal? {Q : Option Literal → List Token → Prop} (yes : ∀ t y v, x = t :: y → Constant t v → Q (some v) y)
    (wrong : ∀ t f, Next last x t → literalOf t = .error f → E f x)
    (no : ∀ t, Next last x t → literalOf t = .ok none → Q none x) : Reads last (literal? (σ := σ)) x Q E := by
  refine .bind (.next ?_)
  intro t ht
  split
  · exact .throw (wrong t _ ht ‹_›)
  · exact .pure (no t ht ‹_›)
  · rename_i v hv
    have hc : Constant t v := constant_iff.mpr hv
    obtain ⟨y, rfl⟩ := ht.cons (hc.kind_ne (by decide))
    exact .bind (.take (.pure (yes t y v rfl hc)))

end Reads

/-! ## Programs -/

/-- A scope and the end of the text. -/
def Grammar.wholeScope (depth : Nat) : Reading σ Scope := do
  let root ← scope depth
  let next ← Lookahead.peek 0
  if next.kind = .endOfText then return root else throw (.trailing next)

/-- Whatever holds of reading a whole scope holds of `parse`, with all tokens of the source ahead. -/
theorem Lookahead.parse_of_reads {s : Lookahead σ} {w : List Token} {Q : Scope → List Token → Prop}
    {E : Fault → List Token → Prop} (h : Gives TokenStream.pull (TokenStream.rewind s.source) w last)
    (hr : Reads last (wholeScope (σ := σ) (depthFor (TokenStream.bound s.source))) w Q E) : match s.parse with
      | (.ok b, s') => ∃ y, Ahead last s' y ∧ Q b y
      | (.error f, s') => last = .error f ∨ ∃ y, Ahead last s' y ∧ E f y := by
  have hs := hr ⟨TokenStream.rewind s.source, []⟩ (.pending rfl h.kind_ne h)
  have hp : Grammar.program (σ := σ) (depthFor (TokenStream.bound s.source)) s =
    wholeScope (depthFor (TokenStream.bound s.source)) ⟨TokenStream.rewind s.source, []⟩ := rfl
  rw [Lookahead.parse, hp]
  revert hs
  cases wholeScope (σ := σ) (depthFor (TokenStream.bound s.source)) ⟨TokenStream.rewind s.source, []⟩ <;>
    exact id

/-! ## Looking ahead -/

/-- What comes after the bracket that closes the outermost of `depth` open brackets. -/
def closing : Nat → List Token → Option (List Token)
  | 0, x => some x
  | _ + 1, [] => none
  | depth + 1, t :: x =>
    match t.kind with
    | .openBracket => closing (depth + 2) x
    | .closeBracket => closing depth x
    | _ => closing (depth + 1) x

/-- Whether the bracket that closes `depth` open ones is followed by an equals sign. -/
def Assigns (depth : Nat) (x : List Token) : Prop := ∃ q z, closing depth x = some (q :: z) ∧ q.kind = .assign

namespace Reads

variable {n : Nat} {x : List Token} {E : Fault → List Token → Prop}

theorem pastLayout {g : List Token} {Q : Nat → List Token → Prop} (deep : x.length + 1 ≤ n ∨ ∀ y, E .tooDeep y)
    (hg : ∀ t ∈ g, isLayout t) (h : ∀ gap z, g ++ x = gap ++ z → (∀ t ∈ gap, isLayout t) →
      (∀ t, Next last z t → ¬ isLayout t) → Q gap.length (g ++ x)) :
    Reads last (pastLayout (σ := σ) n g.length) (g ++ x) Q E := by
  induction n generalizing g x with
  | zero => exact .throw (deep.elim (fun h => by omega) fun h => h _)
  | succ n ih =>
    rw [Grammar.pastLayout]
    refine .bind (.peekKind ?_)
    intro t ht
    split
    · rename_i hk
      obtain ⟨x, rfl⟩ := ht.cons fun he => by simp [he] at hk
      have next := ih (g := g ++ [t]) (x := x) (deep.imp_left fun h => by simp only [List.length_cons] at h; omega)
        (List.forall_mem_append.mpr ⟨hg, fun u hu => List.mem_singleton.mp hu ▸ hk⟩) (by simpa using h)
      simpa using next
    · exact .pure (h g x rfl hg fun u hu => hu.unique ht ▸ ‹_›)

theorem assignsElement {depth : Nat} {p : List Token} {Q : Bool → List Token → Prop}
    (deep : x.length + 2 ≤ n ∨ ∀ y, E .tooDeep y) (h : ∀ r, (r = true ↔ Assigns depth x) → Q r (p ++ x)) :
    Reads last (assignsElement (σ := σ) n p.length depth) (p ++ x) Q E := by
  induction n generalizing p x depth with
  | zero => exact .throw (deep.elim (fun h => by omega) fun h => h _)
  | succ n ih =>
    cases depth with
    | zero =>
      rw [Grammar.assignsElement]
      refine .bind (.peekKind fun t ht => .pure (h _ ?_))
      rw [decide_eq_true_iff]
      constructor
      · intro hk
        obtain ⟨y, rfl⟩ := ht.cons (by simp [hk])
        exact ⟨t, y, by simp [closing], hk⟩
      · intro ha
        rcases ha with ⟨q, z, hx, hk⟩
        obtain rfl : x = q :: z := by simpa [closing] using hx
        exact ht.head ▸ hk
    | succ depth =>
      rw [Grammar.assignsElement]
      -- A token that is no end token is passed over, at the depth that it leaves.
      have step {t : Token} {d : Nat} (ht : Next last x t) (hk : t.kind ≠ .endOfText)
          (hd : ∀ x, closing (depth + 1) (t :: x) = closing d x) :
          Reads last (Grammar.assignsElement (σ := σ) n (p.length + 1) d) (p ++ x) Q E := by
        obtain ⟨x, rfl⟩ := ht.cons hk
        have next : Reads last (Grammar.assignsElement (σ := σ) n (p ++ [t]).length d) (p ++ [t] ++ x) Q E := ih
          (deep.imp_left fun h => by simp only [List.length_cons] at h; omega)
          (fun r hr => by simpa using h r (by simpa [Assigns, hd] using hr))
        simpa using next
      refine .bind (.peekKind ?_)
      intro t ht
      split
      · rename_i hk
        exact step ht (by simp [hk]) fun x => by simp [closing, hk]
      · rename_i hk
        exact step ht (by simp [hk]) fun x => by simp [closing, hk]
      · rename_i hk
        refine .pure (h false ?_)
        obtain rfl := ht.nil_of_kind hk
        simp [Assigns, closing]
      · rename_i ho hc he
        exact step ht he fun x => by simp only [closing]

end Reads

end ScriptLang
