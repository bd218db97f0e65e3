/-
  ScriptLang.Proofs.Tree.WellFormed — the trees that texts can give.

  A tree is well formed if its names are identifiers and no keywords, calls have arguments and
  functions parameters, its operators have a syntax, and its literals are such as a token can
  stand for. `literals` lists the literals at every depth.
  - `Statement.formed`, …, `Program.formed`: what derives from the tokens of a lexer is well
    formed, and holds no double that is no number.
-/

import ScriptLang.Proofs.Grammar.Derivation
import ScriptLang.Proofs.Lexer.Classes
import ScriptLang.Proofs.Calendar.Written

namespace ScriptLang

open Grammar
open Token (Kind)

/-! ## Well-formed trees -/

def Literal.WellFormed : Literal → Prop
  | .empty | .boolean _ => True
  | .string value => LacksQuote value
  | .integer value => 0 ≤ value.toInt
  | .double value => value.negative = false
  | .date value => 0 ≤ value.year ∧ value.year ≤ 9999

/-- What is known of a literal that was read. -/
structure Literal.Readable (v : Literal) : Prop where
  wellFormed : v.WellFormed
  number : ∀ x, v = .double x → x.isNaN = false

def BinaryOp.hasSyntax : BinaryOp → Bool
  | shiftLeft | shiftRight | bitAnd | bitOr | bitXor => false
  | _ => true

def UnaryOp.hasSyntax : UnaryOp → Bool
  | negate | invert | not => true
  | _ => false

mutual

/-- A tree that can be written, its literals apart. -/
def Expr.Shaped : Expr → Prop
  | .literal _ => True
  | .var name => IsName name
  | .call function arguments => IsName function ∧ arguments ≠ [] ∧ Expr.AllShaped arguments
  | .element array index => IsName array ∧ index.Shaped
  | .unary op operand => op.hasSyntax = true ∧ operand.Shaped
  | .binary op left right => op.hasSyntax = true ∧ left.Shaped ∧ right.Shaped

def Expr.AllShaped : List Expr → Prop
  | [] => True
  | e :: es => e.Shaped ∧ Expr.AllShaped es

end

mutual

def Expr.literals : Expr → List Literal
  | .literal value => [value]
  | .var _ => []
  | .call _ arguments => Expr.allLiterals arguments
  | .element _ index => index.literals
  | .unary _ operand => operand.literals
  | .binary _ left right => left.literals ++ right.literals

def Expr.allLiterals : List Expr → List Literal
  | [] => []
  | e :: es => e.literals ++ Expr.allLiterals es

end

mutual

def Stmt.Shaped : Stmt → Prop
  | .declare name value | .declareArray name value | .assign name value => IsName name ∧ value.Shaped
  | .assignElement array index value => IsName array ∧ index.Shaped ∧ value.Shaped
  | .ifThen condition body | .whileLoop condition body => condition.Shaped ∧ Stmt.AllShaped body
  | .ifElse condition body otherwise => condition.Shaped ∧ Stmt.AllShaped body ∧ Stmt.AllShaped otherwise
  | .define function parameters body =>
    IsName function ∧ parameters ≠ [] ∧ (∀ p ∈ parameters, IsName p) ∧ Stmt.AllShaped body
  | .returns none => True
  | .returns (some value) | .expression value => value.Shaped
  | .block body => Stmt.AllShaped body

def Stmt.AllShaped : List Stmt → Prop
  | [] => True
  | s :: ss => s.Shaped ∧ Stmt.AllShaped ss

end

mutual

def Stmt.literals : Stmt → List Literal
  | .declare _ value | .declareArray _ value | .assign _ value | .expression value | .returns (some value) =>
    value.literals
  | .assignElement _ index value => index.literals ++ value.literals
  | .ifThen condition body | .whileLoop condition body => condition.literals ++ Stmt.allLiterals body
  | .ifElse condition body otherwise => condition.literals ++ (Stmt.allLiterals body ++ Stmt.allLiterals otherwise)
  | .define _ _ body | .block body => Stmt.allLiterals body
  | .returns none => []

def Stmt.allLiterals : List Stmt → List Literal
  | [] => []
  | s :: ss => s.literals ++ Stmt.allLiterals ss

end

/-- The literals of a program, at every depth. -/
def Scope.literals (scope : Scope) : List Literal := Stmt.allLiterals scope

structure Scope.WellFormed (scope : Scope) : Prop where
  shaped : Stmt.AllShaped scope
  literals : ∀ v ∈ Scope.literals scope, v.WellFormed

/-! ## What derives is well formed -/

/-- Tokens of a lexer. -/
def AllLexical (x : List Token) : Prop := ∀ t ∈ x, Lexical t

theorem AllLexical.cons {t : Token} {x : List Token} (h : AllLexical (t :: x)) : Lexical t ∧ AllLexical x :=
  List.forall_mem_cons.mp h

/-- Shape and literals of a tree that was read. -/
structure Expr.Formed (e : Expr) : Prop where
  shaped : e.Shaped
  literals : ∀ v ∈ e.literals, v.Readable

structure Stmt.Formed (s : Stmt) : Prop where
  shaped : s.Shaped
  literals : ∀ v ∈ s.literals, v.Readable

structure Scope.Formed (scope : Scope) : Prop where
  shaped : Stmt.AllShaped scope
  literals : ∀ v ∈ Scope.literals scope, v.Readable

theorem Grammar.Named.isName {t : Token} (h : Named t) (ht : Lexical t) : IsName t.text := ht.name h.kind

theorem BinaryOp.hasSyntax_of_ofKind? {k : Kind} {op : BinaryOp} (h : ofKind? k = some op) : op.hasSyntax = true := by
  cases k <;> cases h <;> rfl

theorem UnaryOp.hasSyntax_of_ofKind? {k : Kind} {op : UnaryOp} (h : ofKind? k = some op) : op.hasSyntax = true := by
  cases k <;> cases h <;> rfl

/-- A number that starts with a digit has no sign, and is none that a word stands for. -/
theorem Literal.ofNumber?_cases {text : String} {c : Char} {cs : List Char} {v : Literal} (htext : text.toList = c :: cs)
    (hd : c.isDigit = true) (hv : ofNumber? text = some v) : (∃ n, v = .integer n ∧ 0 ≤ n.toInt) ∨
      ∃ x, v = .double x ∧ x.negative = false ∧ x.isNaN = false := by
  unfold ofNumber? at hv
  rw [htext] at hv
  split at hv
  · rename_i n hn
    cases hv
    exact .inl ⟨n, rfl, Numeral.integer?_nonneg hd hn⟩
  · obtain ⟨x, hx, rfl⟩ := Option.map_eq_some_iff.mp hv
    exact .inr ⟨x, rfl, Numeral.double?_plain hd hx⟩

theorem Grammar.Constant.readable {t : Token} {v : Literal} (h : Constant t v) (ht : Lexical t) : v.Readable := by
  cases h with
  | empty => exact ⟨trivial, nofun⟩
  | true => exact ⟨trivial, nofun⟩
  | false => exact ⟨trivial, nofun⟩
  | string hk => exact ⟨ht.string hk, nofun⟩
  | number hk hv =>
    obtain ⟨c, cs, htext, hd⟩ := ht.number hk
    rcases Literal.ofNumber?_cases htext hd hv with ⟨n, rfl, hn⟩ | ⟨x, rfl, hn, hnan⟩
    · exact ⟨hn, nofun⟩
    · exact ⟨hn, fun y hy => by cases hy; exact hnan⟩
  | date hk hv =>
    obtain ⟨d, hd, rfl⟩ := Option.map_eq_some_iff.mp hv
    exact ⟨Date.ofChars?_year hd, nofun⟩

theorem Grouped.formed {a e : Expr} {ops : List Link} (h : Grouped a ops e) (ha : a.Formed)
    (ho : ∀ o ∈ ops, o.1.hasSyntax = true ∧ o.2.Formed) : e.Formed := by
  induction h with
  | operand => exact ha
  | split _ _ _ _ ihl ihr =>
    simp only [List.forall_mem_append, List.forall_mem_cons] at ho
    have hl := ihl ha ho.1
    have hr := ihr ho.2.1.2 ho.2.2
    exact ⟨⟨ho.2.1.1, hl.shaped, hr.shaped⟩, List.forall_mem_append.mpr ⟨hl.literals, hr.literals⟩⟩

mutual

theorem Grammar.Atom.formed : ∀ {x : List Token} {e : Expr} {y : List Token}, Atom x e y → AllLexical x →
    e.Formed ∧ AllLexical y
  | _, _, _, .inner _ h _, hx => by
    obtain ⟨he, hy⟩ := h.formed hx.cons.2
    exact ⟨he, hy.cons.2⟩
  | _, _, _, .unary hk h, hx => by
    obtain ⟨he, hy⟩ := h.formed hx.cons.2
    exact ⟨⟨⟨UnaryOp.hasSyntax_of_ofKind? hk, he.shaped⟩, he.literals⟩, hy⟩
  | _, _, _, .var ht, hx => ⟨⟨ht.isName hx.cons.1, nofun⟩, hx.cons.2⟩
  | _, _, _, .call ht _ h, hx => by
    obtain ⟨hes, hne, hy⟩ := h.formed hx.cons.2.cons.2
    exact ⟨⟨⟨ht.isName hx.cons.1, hne, hes.1⟩, hes.2⟩, hy⟩
  | _, _, _, .element ht _ h _, hx => by
    obtain ⟨he, hy⟩ := h.formed hx.cons.2.cons.2
    exact ⟨⟨⟨ht.isName hx.cons.1, he.shaped⟩, he.literals⟩, hy.cons.2⟩
  | _, _, _, .literal hv, hx =>
    ⟨⟨trivial, List.forall_mem_singleton.mpr (hv.readable hx.cons.1)⟩, hx.cons.2⟩

theorem Grammar.Expression.formed : ∀ {x : List Token} {e : Expr} {y : List Token}, Expression x e y → AllLexical x →
    e.Formed ∧ AllLexical y
  | _, _, _, .chain ha hc hg, hx => by
    obtain ⟨he, hy⟩ := ha.formed hx
    obtain ⟨ho, hz⟩ := hc.formed hy
    exact ⟨hg.formed he ho, hz⟩

theorem Grammar.Chain.formed : ∀ {x : List Token} {ops : List Link} {y : List Token}, Chain x ops y → AllLexical x →
    (∀ o ∈ ops, o.1.hasSyntax = true ∧ o.2.Formed) ∧ AllLexical y
  | _, _, _, .nil, hx => ⟨nofun, hx⟩
  | _, _, _, .cons hk ha hc, hx => by
    obtain ⟨he, hy⟩ := ha.formed hx.cons.2
    obtain ⟨ho, hz⟩ := hc.formed hy
    exact ⟨List.forall_mem_cons.mpr ⟨⟨BinaryOp.hasSyntax_of_ofKind? hk, he⟩, ho⟩, hz⟩

theorem Grammar.Arguments.formed : ∀ {x : List Token} {es : List Expr} {y : List Token}, Arguments x es y →
    AllLexical x → (Expr.AllShaped es ∧ ∀ v ∈ Expr.allLiterals es, v.Readable) ∧ es ≠ [] ∧ AllLexical y
  | _, _, _, .one h _, hx => by
    obtain ⟨he, hy⟩ := h.formed hx
    exact ⟨⟨⟨he.shaped, trivial⟩, List.forall_mem_append.mpr ⟨he.literals, nofun⟩⟩, nofun, hy.cons.2⟩
  | _, _, _, .more h _ h', hx => by
    obtain ⟨he, hy⟩ := h.formed hx
    obtain ⟨hes, -, hz⟩ := h'.formed hy.cons.2
    exact ⟨⟨⟨he.shaped, hes.1⟩, List.forall_mem_append.mpr ⟨he.literals, hes.2⟩⟩, nofun, hz⟩

end

theorem Grammar.Parameters.formed {x y : List Token} {ps : List String} (h : Parameters x ps y) (hx : AllLexical x) :
    (ps ≠ [] ∧ ∀ p ∈ ps, IsName p) ∧ AllLexical y := by
  induction h with
  | one ht _ => exact ⟨⟨nofun, List.forall_mem_singleton.mpr (ht.isName hx.cons.1)⟩, hx.cons.2.cons.2⟩
  | more ht _ _ ih =>
    obtain ⟨hps, hy⟩ := ih hx.cons.2.cons.2
    exact ⟨⟨nofun, List.forall_mem_cons.mpr ⟨ht.isName hx.cons.1, hps.2⟩⟩, hy⟩

mutual

theorem Grammar.Statement.formed : ∀ {x : List Token} {s : Stmt} {y : List Token}, Statement x s y → AllLexical x →
    s.Formed ∧ AllLexical y
  | _, _, _, .declare _ ht _ h, hx => by
    obtain ⟨he, hy⟩ := h.formed hx.cons.2.cons.2.cons.2
    exact ⟨⟨⟨ht.isName hx.cons.2.cons.1, he.shaped⟩, he.literals⟩, hy⟩
  | _, _, _, .declareArray _ ht _ _ h _, hx => by
    obtain ⟨he, hy⟩ := h.formed hx.cons.2.cons.2.cons.2.cons.2
    exact ⟨⟨⟨ht.isName hx.cons.2.cons.1, he.shaped⟩, he.literals⟩, hy.cons.2⟩
  | _, _, _, .assign ht _ h, hx => by
    obtain ⟨he, hy⟩ := h.formed hx.cons.2.cons.2
    exact ⟨⟨⟨ht.isName hx.cons.1, he.shaped⟩, he.literals⟩, hy⟩
  | _, _, _, .assignElement ht _ hi _ _ h, hx => by
    obtain ⟨hi, hy⟩ := hi.formed hx.cons.2.cons.2
    obtain ⟨he, hz⟩ := h.formed hy.cons.2.cons.2
    exact ⟨⟨⟨ht.isName hx.cons.1, hi.shaped, he.shaped⟩, List.forall_mem_append.mpr ⟨hi.literals, he.literals⟩⟩, hz⟩
  | _, _, _, .ifThen _ h hb, hx => by
    obtain ⟨he, hy⟩ := h.formed hx.cons.2
    obtain ⟨hb, hz⟩ := hb.formed hy
    exact ⟨⟨⟨he.shaped, hb.shaped⟩, List.forall_mem_append.mpr ⟨he.literals, hb.literals⟩⟩, hz⟩
  | _, _, _, .ifElse _ h hb _ _ hb', hx => by
    obtain ⟨he, hy⟩ := h.formed hx.cons.2
    obtain ⟨hb, hz⟩ := hb.formed hy
    obtain ⟨hb', hu⟩ := hb'.formed (AllLexical.cons (List.forall_mem_append.mp hz).2).2
    exact ⟨⟨⟨he.shaped, hb.shaped, hb'.shaped⟩,
      List.forall_mem_append.mpr ⟨he.literals, List.forall_mem_append.mpr ⟨hb.literals, hb'.literals⟩⟩⟩, hu⟩
  | _, _, _, .whileLoop _ h hb, hx => by
    obtain ⟨he, hy⟩ := h.formed hx.cons.2
    obtain ⟨hb, hz⟩ := hb.formed hy
    exact ⟨⟨⟨he.shaped, hb.shaped⟩, List.forall_mem_append.mpr ⟨he.literals, hb.literals⟩⟩, hz⟩
  | _, _, _, .define _ ht _ hp hb, hx => by
    obtain ⟨hps, hy⟩ := hp.formed hx.cons.2.cons.2.cons.2
    obtain ⟨hb, hz⟩ := hb.formed hy
    exact ⟨⟨⟨ht.isName hx.cons.2.cons.1, hps.1, hps.2, hb.shaped⟩, hb.literals⟩, hz⟩
  | _, _, _, .returns _, hx => ⟨⟨trivial, nofun⟩, hx.cons.2⟩
  | _, _, _, .returnsValue _ h, hx => by
    obtain ⟨he, hy⟩ := h.formed hx.cons.2
    exact ⟨⟨he.shaped, he.literals⟩, hy⟩
  | _, _, _, .block hb, hx => by
    obtain ⟨hb, hy⟩ := hb.formed hx
    exact ⟨⟨hb.shaped, hb.literals⟩, hy⟩
  | _, _, _, .expression h, hx => by
    obtain ⟨he, hy⟩ := h.formed hx
    exact ⟨⟨he.shaped, he.literals⟩, hy⟩

theorem Grammar.Block.formed : ∀ {x : List Token} {b : Scope} {y : List Token}, Block x b y → AllLexical x →
    b.Formed ∧ AllLexical y
  | _, _, _, .braces _ h _, hx => by
    obtain ⟨hb, hy⟩ := h.formed hx.cons.2
    exact ⟨hb, hy.cons.2⟩

theorem Grammar.Statements.formed : ∀ {x : List Token} {b : Scope} {y : List Token}, Statements x b y → AllLexical x →
    b.Formed ∧ AllLexical y
  | _, _, _, .nil, hx => ⟨⟨trivial, nofun⟩, hx⟩
  | _, _, _, .skip _ h, hx => h.formed hx.cons.2
  | _, _, _, .cons hs _ h, hx => by
    obtain ⟨hs, hy⟩ := hs.formed hx
    obtain ⟨hb, hz⟩ := h.formed hy
    exact ⟨⟨⟨hs.shaped, hb.shaped⟩, List.forall_mem_append.mpr ⟨hs.literals, hb.literals⟩⟩, hz⟩

end

/-- A program that derives from the tokens of a lexer is well formed. -/
theorem Grammar.Program.formed {w : List Token} {b : Scope} (h : Program w b) (hw : AllLexical w) : b.Formed :=
  (Statements.formed h hw).1

end ScriptLang
