/-
  ScriptLang.Proofs.Grammar.Derivation — the grammar, apart from the readers.

  A rule `R x v y` says that tokens from the front of `x` derive the value `v` and that `y` is
  what comes after them. No rule looks at what it leaves, but for one: a statement must be
  followed by a separator or by the end of the tokens.

      program     = statements, up to the end
      statements  = ( separator | statement )*
      statement   = "let" name "=" ( "[" expression "]" | expression )
                  | "if" expression block ( ( newline | comment )* "else" block )?
                  | "while" expression block
                  | "def" name "(" name ( "," name )* ")" block
                  | "return" expression?
                  | block
                  | name "=" expression
                  | name "[" expression "]" "=" expression
                  | expression
      block       = "{" statements "}"
      expression  = atom ( operator atom )*
      atom        = "(" expression ")"
                  | sign atom
                  | name ( "(" expression ( "," expression )* ")" | "[" expression "]" )?
                  | constant

  - `Atom.length_lt`, …, `Statement.length_lt`: what derives a value is not empty.
-/

import ScriptLang.Grammar.Program
import ScriptLang.Proofs.Grammar.Grouping

namespace ScriptLang.Grammar

open Token (Kind)

/-- A token that stands for a literal. -/
inductive Constant (t : Token) : Literal → Prop
  | empty : t.kind = .emptyWord → Constant t .empty
  | true : t.kind = .trueWord → Constant t (.boolean true)
  | false : t.kind = .falseWord → Constant t (.boolean false)
  | string : t.kind = .string → Constant t (.string t.text)
  | number {v : Literal} : t.kind = .number → Literal.ofNumber? t.text = some v → Constant t v
  | date {v : Literal} : t.kind = .date → Literal.ofDate? t.text = some v → Constant t v

theorem constant_iff {t : Token} {v : Literal} : Constant t v ↔ literalOf t = .ok (some v) := by
  constructor
  · intro hc
    rcases hc with h | h | h | h | ⟨h, hv⟩ | ⟨h, hv⟩ <;> simp [literalOf, *]
  · intro h
    unfold literalOf at h
    split at h
    · cases h; exact .empty ‹_›
    · cases h; exact .true ‹_›
    · cases h; exact .false ‹_›
    · cases h; exact .string ‹_›
    · split at h <;> cases h
      exact .number ‹_› ‹_›
    · split at h <;> cases h
      exact .date ‹_› ‹_›
    · cases h

/-- A token that names a variable or function. -/
structure Named (t : Token) : Prop where
  kind : t.kind = .name
  proper : isProperName t.text = true

/-! ## Expressions -/

mutual

inductive Atom : List Token → Expr → List Token → Prop
  | inner {o c : Token} {x y : List Token} {e : Expr} : o.kind = .openParen → Expression x e (c :: y) →
      c.kind = .closeParen → Atom (o :: x) e y
  | unary {t : Token} {op : UnaryOp} {x y : List Token} {e : Expr} : UnaryOp.ofKind? t.kind = some op → Atom x e y →
      Atom (t :: x) (.unary op e) y
  | var {t : Token} {x : List Token} : Named t → Atom (t :: x) (.var t.text) x
  | call {t o : Token} {x y : List Token} {es : List Expr} : Named t → o.kind = .openParen → Arguments x es y →
      Atom (t :: o :: x) (.call t.text es) y
  | element {t o c : Token} {x y : List Token} {e : Expr} : Named t → o.kind = .openBracket →
      Expression x e (c :: y) → c.kind = .closeBracket → Atom (t :: o :: x) (.element t.text e) y
  | literal {t : Token} {x : List Token} {v : Literal} : Constant t v → Atom (t :: x) (.literal v) x

inductive Expression : List Token → Expr → List Token → Prop
  | chain {x y z : List Token} {a e : Expr} {ops : List Link} : Atom x a y → Chain y ops z → Grouped a ops e →
      Expression x e z

/-- Operators, each with an atom after it. -/
inductive Chain : List Token → List Link → List Token → Prop
  | nil {x : List Token} : Chain x [] x
  | cons {t : Token} {x y z : List Token} {op : BinaryOp} {a : Expr} {ops : List Link} :
      BinaryOp.ofKind? t.kind = some op → Atom x a y → Chain y ops z → Chain (t :: x) ((op, a) :: ops) z

/-- Arguments and the parenthesis that closes them. -/
inductive Arguments : List Token → List Expr → List Token → Prop
  | one {c : Token} {x y : List Token} {e : Expr} : Expression x e (c :: y) → c.kind = .closeParen → Arguments x [e] y
  | more {c : Token} {x y z : List Token} {e : Expr} {es : List Expr} : Expression x e (c :: y) → c.kind = .comma →
      Arguments y es z → Arguments x (e :: es) z

end

/-! ## Statements -/

/-- Parameters and the parenthesis that closes them. -/
inductive Parameters : List Token → List String → List Token → Prop
  | one {t c : Token} {x : List Token} : Named t → c.kind = .closeParen → Parameters (t :: c :: x) [t.text] x
  | more {t c : Token} {x y : List Token} {ps : List String} : Named t → c.kind = .comma → Parameters x ps y →
      Parameters (t :: c :: x) (t.text :: ps) y

/-- A token that may stand between a block and its `else`. -/
def isLayout (t : Token) : Prop := t.kind = .newline ∨ t.kind = .comment

theorem isLayout.isSeparator {t : Token} (h : isLayout t) : t.kind.isSeparator = true := by
  rcases h with h | h <;> rw [h] <;> rfl

theorem isLayout.kind_ne {t : Token} (h : isLayout t) : t.kind ≠ .endOfText := by
  rcases h with h | h <;> rw [h] <;> decide

/-- What may follow a statement: a separator, or nothing. -/
inductive Ended : List Token → Prop
  | nil : Ended []
  | separator {t : Token} {x : List Token} : t.kind.isSeparator = true → Ended (t :: x)

mutual

inductive Statement : List Token → Stmt → List Token → Prop
  | declare {l t q : Token} {x y : List Token} {e : Expr} : l.kind = .letWord → Named t → q.kind = .assign →
      Expression x e y → Statement (l :: t :: q :: x) (.declare t.text e) y
  | declareArray {l t q o c : Token} {x y : List Token} {e : Expr} : l.kind = .letWord → Named t → q.kind = .assign →
      o.kind = .openBracket → Expression x e (c :: y) → c.kind = .closeBracket →
      Statement (l :: t :: q :: o :: x) (.declareArray t.text e) y
  | assign {t q : Token} {x y : List Token} {e : Expr} : Named t → q.kind = .assign → Expression x e y →
      Statement (t :: q :: x) (.assign t.text e) y
  | assignElement {t o c q : Token} {x y z : List Token} {i e : Expr} : Named t → o.kind = .openBracket →
      Expression x i (c :: q :: y) → c.kind = .closeBracket → q.kind = .assign → Expression y e z →
      Statement (t :: o :: x) (.assignElement t.text i e) z
  | ifThen {i : Token} {x y z : List Token} {e : Expr} {b : Scope} : i.kind = .ifWord → Expression x e y →
      Block y b z → Statement (i :: x) (.ifThen e b) z
  | ifElse {i k : Token} {x y z u g : List Token} {e : Expr} {b b' : Scope} : i.kind = .ifWord →
      Expression x e y → Block y b (g ++ k :: z) → (∀ t ∈ g, isLayout t) → k.kind = .elseWord → Block z b' u →
      Statement (i :: x) (.ifElse e b b') u
  | whileLoop {w : Token} {x y z : List Token} {e : Expr} {b : Scope} : w.kind = .whileWord → Expression x e y →
      Block y b z → Statement (w :: x) (.whileLoop e b) z
  | define {d t o : Token} {x y z : List Token} {ps : List String} {b : Scope} : d.kind = .defWord → Named t →
      o.kind = .openParen → Parameters x ps y → Block y b z → Statement (d :: t :: o :: x) (.define t.text ps b) z
  | returns {r : Token} {x : List Token} : r.kind = .returnWord → Statement (r :: x) (.returns none) x
  | returnsValue {r : Token} {x y : List Token} {e : Expr} : r.kind = .returnWord → Expression x e y →
      Statement (r :: x) (.returns (some e)) y
  | block {x y : List Token} {b : Scope} : Block x b y → Statement x (.block b) y
  | expression {x y : List Token} {e : Expr} : Expression x e y → Statement x (.expression e) y

inductive Block : List Token → Scope → List Token → Prop
  | braces {o c : Token} {x y : List Token} {b : Scope} : o.kind = .openBrace → Statements x b (c :: y) →
      c.kind = .closeBrace → Block (o :: x) b y

inductive Statements : List Token → Scope → List Token → Prop
  | nil {x : List Token} : Statements x [] x
  | skip {t : Token} {x y : List Token} {b : Scope} : t.kind.isSeparator = true → Statements x b y →
      Statements (t :: x) b y
  | cons {x y z : List Token} {s : Stmt} {b : Scope} : Statement x s y → Ended y → Statements y b z →
      Statements x (s :: b) z

end

/-- The tokens derive a program, and nothing is left of them. -/
def Program (w : List Token) (b : Scope) : Prop := Statements w b []

/-! ## Progress -/

mutual

theorem Atom.length_lt : ∀ {x : List Token} {e : Expr} {y : List Token}, Atom x e y → y.length < x.length
  | _, _, _, .inner _ h _ => by have := h.length_lt; simp only [List.length_cons] at *; omega
  | _, _, _, .unary _ h => by have := h.length_lt; simp only [List.length_cons]; omega
  | _, _, _, .var _ => Nat.lt_succ_self _
  | _, _, _, .call _ _ h => by have := h.length_lt; simp only [List.length_cons]; omega
  | _, _, _, .element _ _ h _ => by have := h.length_lt; simp only [List.length_cons] at *; omega
  | _, _, _, .literal _ => Nat.lt_succ_self _

theorem Expression.length_lt : ∀ {x : List Token} {e : Expr} {y : List Token}, Expression x e y → y.length < x.length
  | _, _, _, .chain ha hc _ => Nat.lt_of_le_of_lt hc.length_le ha.length_lt

theorem Chain.length_le : ∀ {x : List Token} {ops : List Link} {y : List Token}, Chain x ops y → y.length ≤ x.length
  | _, _, _, .nil => Nat.le_refl _
  | _, _, _, .cons _ ha hc => by have := ha.length_lt; have := hc.length_le; simp only [List.length_cons]; omega

theorem Arguments.length_lt : ∀ {x : List Token} {es : List Expr} {y : List Token},
    Arguments x es y → y.length < x.length
  | _, _, _, .one h _ => by have := h.length_lt; simp only [List.length_cons] at *; omega
  | _, _, _, .more h _ h' => by have := h.length_lt; have := h'.length_lt; simp only [List.length_cons] at *; omega

end

-- The same recursion shows that what is left of the tokens is the end of them.
mutual

theorem Atom.suffix : ∀ {x : List Token} {e : Expr} {y : List Token}, Atom x e y → y <:+ x
  | _, _, _, .inner _ h _ => ((List.suffix_cons ..).trans h.suffix).trans (List.suffix_cons ..)
  | _, _, _, .unary _ h => h.suffix.trans (List.suffix_cons ..)
  | _, _, _, .var _ => List.suffix_cons ..
  | _, _, _, .call _ _ h => (h.suffix.trans (List.suffix_cons ..)).trans (List.suffix_cons ..)
  | _, _, _, .element _ _ h _ =>
    (((List.suffix_cons ..).trans h.suffix).trans (List.suffix_cons ..)).trans (List.suffix_cons ..)
  | _, _, _, .literal _ => List.suffix_cons ..

theorem Expression.suffix : ∀ {x : List Token} {e : Expr} {y : List Token}, Expression x e y → y <:+ x
  | _, _, _, .chain ha hc _ => hc.suffix.trans ha.suffix

theorem Chain.suffix : ∀ {x : List Token} {ops : List Link} {y : List Token}, Chain x ops y → y <:+ x
  | _, _, _, .nil => List.suffix_rfl
  | _, _, _, .cons _ ha hc => (hc.suffix.trans ha.suffix).trans (List.suffix_cons ..)

theorem Arguments.suffix : ∀ {x : List Token} {es : List Expr} {y : List Token}, Arguments x es y → y <:+ x
  | _, _, _, .one h _ => (List.suffix_cons ..).trans h.suffix
  | _, _, _, .more h _ h' => (h'.suffix.trans (List.suffix_cons ..)).trans h.suffix

end

theorem Parameters.length_lt {x : List Token} {ps : List String} {y : List Token} (h : Parameters x ps y) :
    y.length < x.length := by
  induction h with
  | one => simp only [List.length_cons]; omega
  | more _ _ _ ih => simp only [List.length_cons]; omega

mutual

theorem Statement.length_lt : ∀ {x : List Token} {s : Stmt} {y : List Token}, Statement x s y → y.length < x.length
  | _, _, _, .declare _ _ _ h => by have := h.length_lt; simp only [List.length_cons]; omega
  | _, _, _, .declareArray _ _ _ _ h _ => by have := h.length_lt; simp only [List.length_cons] at *; omega
  | _, _, _, .assign _ _ h => by have := h.length_lt; simp only [List.length_cons]; omega
  | _, _, _, .assignElement _ _ h _ _ h' => by
    have := h.length_lt; have := h'.length_lt; simp only [List.length_cons] at *; omega
  | _, _, _, .ifThen _ h hb => by have := h.length_lt; have := hb.length_lt; simp only [List.length_cons]; omega
  | _, _, _, .ifElse _ h hb _ _ hb' => by
    have := h.length_lt; have := hb.length_lt; have := hb'.length_lt
    simp only [List.length_cons, List.length_append] at *; omega
  | _, _, _, .whileLoop _ h hb => by have := h.length_lt; have := hb.length_lt; simp only [List.length_cons]; omega
  | _, _, _, .define _ _ _ hp hb => by have := hp.length_lt; have := hb.length_lt; simp only [List.length_cons]; omega
  | _, _, _, .returns _ => Nat.lt_succ_self _
  | _, _, _, .returnsValue _ h => Nat.lt_succ_of_lt h.length_lt
  | _, _, _, .block h => h.length_lt
  | _, _, _, .expression h => h.length_lt

theorem Block.length_lt : ∀ {x : List Token} {b : Scope} {y : List Token}, Block x b y → y.length < x.length
  | _, _, _, .braces _ h _ => by have := h.length_le; simp only [List.length_cons] at *; omega

theorem Statements.length_le : ∀ {x : List Token} {b : Scope} {y : List Token}, Statements x b y → y.length ≤ x.length
  | _, _, _, .nil => Nat.le_refl _
  | _, _, _, .skip _ h => Nat.le_succ_of_le h.length_le
  | _, _, _, .cons hs _ h => by have := hs.length_lt; have := h.length_le; omega

end

end ScriptLang.Grammar
