/-
  ScriptLang.Proofs.Tree.Written — what a tree is written as, and what that derives.

  The source of a well-formed tree lexes to tokens that derive the tree again, but for infinite
  doubles: they are written as `inf`, which is a name. `reread` is the tree with that name in
  place of every infinite double.
  - `Literal.writes` / `Expr.writes` / `Stmt.writes`: one tree, with anything apart after it.
  - `Scope.lexes`: a whole program.
-/

import ScriptLang.Proofs.Tree.WellFormed
import ScriptLang.Tree.Source

namespace ScriptLang

open Grammar Lexeme
open Token (Kind)

/-! ## What is read again -/

def Literal.reread : Literal → Expr
  | .double x => if x.isFinite then .literal (.double x) else .var "inf"
  | v => .literal v

mutual

def Expr.reread : Expr → Expr
  | .literal value => value.reread
  | .var name => .var name
  | .call function arguments => .call function (Expr.allReread arguments)
  | .element array index => .element array index.reread
  | .unary op operand => .unary op operand.reread
  | .binary op left right => .binary op left.reread right.reread

def Expr.allReread : List Expr → List Expr
  | [] => []
  | e :: es => e.reread :: Expr.allReread es

end

mutual

def Stmt.reread : Stmt → Stmt
  | .declare name value => .declare name value.reread
  | .declareArray name length => .declareArray name length.reread
  | .assign name value => .assign name value.reread
  | .assignElement array index value => .assignElement array index.reread value.reread
  | .ifThen condition body => .ifThen condition.reread (Stmt.allReread body)
  | .ifElse condition body otherwise => .ifElse condition.reread (Stmt.allReread body) (Stmt.allReread otherwise)
  | .whileLoop condition body => .whileLoop condition.reread (Stmt.allReread body)
  | .define function parameters body => .define function parameters (Stmt.allReread body)
  | .returns none => .returns none
  | .returns (some value) => .returns (some value.reread)
  | .block body => .block (Stmt.allReread body)
  | .expression value => .expression value.reread

def Stmt.allReread : List Stmt → List Stmt
  | [] => []
  | s :: ss => s.reread :: Stmt.allReread ss

end

/-! ## Words -/

/-- The text lexes to these tokens, whatever stands apart after it. -/
def Writes (cs : List Char) (ts : List Token) : Prop :=
  ∀ {rest : List Char} {us : List Token}, Apart rest → Lexes rest us → Lexes (cs ++ rest) (ts ++ us)

variable {rest : List Char} {us : List Token}

theorem IsName.lexes {name : String} (h : IsName name) (hr : ∀ d ∈ rest.head?, continuesName d = false)
    (hl : Lexes rest us) : Lexes (name.toList ++ rest) (⟨.name, name⟩ :: us) := by
  obtain ⟨c, cs, hn, hc, hcs⟩ := h.identifier
  have hk := wordKind_eq_name.mpr h.free
  have := Lexes.word hc hcs hr hl
  rw [← hn, hk, String.ofList_toList] at this
  rwa [hn]

theorem IsName.named {name : String} (h : IsName name) : Named ⟨.name, name⟩ := ⟨rfl, h.proper⟩

theorem Apart.word (h : Apart rest) : ∀ d ∈ rest.head?, continuesName d = false := fun d hd => (h d hd).1

/-- A word of the language in front. -/
theorem Lexes.keyword {c : Char} {w : List Char} {k : Kind} (hk : wordKind (c :: w) = k)
    (hc : startsName c = true) (hw : w.all continuesName = true) (hr : ∀ d ∈ rest.head?, continuesName d = false)
    (hl : Lexes rest us) : Lexes (c :: w ++ rest) (⟨k, String.ofList (c :: w)⟩ :: us) := by
  have := Lexes.word hc (List.all_eq_true.mp hw) hr hl
  rwa [hk] at this

/-! ## Literals -/

namespace Literal

/-- Written as a number that is read as the literal again. -/
structure NumberSource (v : Literal) : Prop where
  digits : ∃ parts, Digits parts ∧ v.source = Double.pointed parts
  reads : ofNumber? (String.ofList v.source) = some v

theorem NumberSource.lexes {v : Literal} (h : v.NumberSource) (hr : Apart rest) (hl : Lexes rest us) :
    Lexes (v.source ++ rest) (⟨.number, String.ofList v.source⟩ :: us) := by
  obtain ⟨parts, hp, hs⟩ := h.digits
  rw [hs]
  exact .number hp hr hl

theorem NumberSource.writes {v : Literal} (h : v.NumberSource) :
    ∃ ts, Writes v.source ts ∧ ∀ x, Atom (ts ++ x) (.literal v) x :=
  ⟨[⟨.number, String.ofList v.source⟩], h.lexes, fun _ => .literal (.number rfl h.reads)⟩

theorem integer_numberSource {n : Int64} (h : 0 ≤ n.toInt) : (integer n).NumberSource := by
  have hs : (integer n).source = Nat.toDigits 10 n.toInt.natAbs := by
    rw [source, integerSource, if_neg (Int.not_lt.mpr h), List.nil_append]
  refine ⟨⟨(_, []), ⟨Nat.toDigits_ne_nil, Decimal.toDigits_isDigit _, nofun⟩, hs⟩, ?_⟩
  rw [hs, ofNumber?, String.toList_ofList, Numeral.integer?_toDigits h]

theorem double_numberSource {x : Double} (hf : x.isFinite = true) (hn : x.negative = false) :
    (double x).NumberSource := by
  have hnan : x.isNaN = false := by
    simp only [Double.isFinite, Double.isNaN, decide_eq_true_eq, decide_eq_false_iff_not] at hf ⊢
    omega
  obtain ⟨hp, hr⟩ := Double.sourceParts_reads hf
  have hs : (double x).source = Double.pointed x.sourceParts := by
    simp [source, Double.source, hnan, hn, hf, Double.sourceMagnitude_eq]
  refine ⟨⟨_, hp, hs⟩, ?_⟩
  rw [hs, ofNumber?, String.toList_ofList, Numeral.integer?_pointed hp (Double.le_of_no_fraction hf hn),
    Numeral.double?_pointed hp]
  rw [hn] at hr
  simp [hr]

theorem infinite_source {x : Double} (hf : x.isFinite = false) (hn : x.negative = false) (hnan : x.isNaN = false) :
    x.source = "inf".toList := by
  simp [Double.source, hnan, hn, hf]

theorem string_writes {s : String} (h : LacksQuote s) :
    ∃ ts, Writes (quoted s.toList) ts ∧ ∀ x, Atom (ts ++ x) (.literal (.string s)) x := by
  refine ⟨[⟨.string, s⟩], fun {rest us} _ hl => ?_, fun x => .literal (.string rfl)⟩
  have key {q : Char} (hq : isQuote q = true) (hs : q ∉ s.toList) :
      Lexes (q :: s.toList ++ [q] ++ rest) (⟨.string, s⟩ :: us) := by
    have := Lexes.string hq hs hl
    rw [String.ofList_toList] at this
    simpa using this
  unfold quoted
  split
  · exact key rfl (h.resolve_left fun hno => hno ‹_›)
  · exact key rfl ‹_›

theorem date_writes {d : Date} (h : 0 ≤ d.year ∧ d.year ≤ 9999) :
    ∃ ts, Writes d.dayFirst ts ∧ ∀ x, Atom (ts ++ x) (.literal (.date d)) x := by
  refine ⟨[⟨.date, String.ofList d.dayFirst⟩], fun {rest us} hr hl => ?_, fun x => .literal (.date rfl ?_)⟩
  · have := Lexes.date (Date.padded_lengths h) (Date.padded_isDigits d) hr.not_digit hl
    rw [← Date.dayFirst_parts h] at this
    have htext : d.dayFirst ++ rest = Date.padded 2 d.day ++ '/' :: (Date.padded 2 d.month ++ '/' ::
        (Date.padded 4 d.year.natAbs ++ rest)) := by rw [Date.dayFirst_parts h]; simp
    rwa [htext]
  · rw [ofDate?, String.toList_ofList, Date.ofChars?_dayFirst h]
    rfl

/-- A literal is written as one token, which is read again. -/
theorem writes {v : Literal} (h : v.Readable) : ∃ ts, Writes v.source ts ∧ ∀ x, Atom (ts ++ x) v.reread x := by
  cases v with
  | empty =>
    exact ⟨[⟨.emptyWord, "empty"⟩], fun hr hl => .keyword rfl rfl rfl hr.word hl, fun x => .literal (.empty rfl)⟩
  | boolean b =>
    cases b with
    | true =>
      exact ⟨[⟨.trueWord, "true"⟩], fun hr hl => .keyword rfl rfl rfl hr.word hl, fun x => .literal (.true rfl)⟩
    | false =>
      exact ⟨[⟨.falseWord, "false"⟩], fun hr hl => .keyword rfl rfl rfl hr.word hl, fun x => .literal (.false rfl)⟩
  | string s => exact string_writes h.wellFormed
  | integer n => exact (integer_numberSource h.wellFormed).writes
  | double x =>
    have hn : x.negative = false := h.wellFormed
    cases hf : x.isFinite with
    | true =>
      rw [show (Literal.double x).reread = .literal (.double x) by simp [reread, hf]]
      exact (double_numberSource hf hn).writes
    | false =>
      rw [show (Literal.double x).reread = .var "inf" by simp [reread, hf]]
      have hs : (Literal.double x).source = "inf".toList := infinite_source hf hn (h.number x rfl)
      rw [hs]
      exact ⟨[⟨.name, "inf"⟩], fun hr hl => .keyword rfl rfl rfl hr.word hl, fun y => .var ⟨rfl, by decide⟩⟩
  | date d => exact date_writes h.wellFormed

/-- No literal starts with an equals sign. -/
theorem source_head (v : Literal) : ∃ c cs, v.source = c :: cs ∧ c ≠ '=' := by
  have digit {cs : List Char} (hne : cs ≠ []) (hd : ∀ c ∈ cs, c.isDigit = true) (rest : List Char) :
      ∃ c ds, cs ++ rest = c :: ds ∧ c ≠ '=' := by
    obtain ⟨c, cs, rfl⟩ := List.exists_cons_of_ne_nil hne
    exact ⟨c, _, rfl, fun he => by have := hd c (by simp); rw [he] at this; cases this⟩
  cases v with
  | empty => exact ⟨_, _, rfl, by decide⟩
  | boolean b => cases b <;> exact ⟨_, _, rfl, by decide⟩
  | string s =>
    show ∃ c cs, quoted s.toList = c :: cs ∧ c ≠ '='
    unfold quoted
    split <;> exact ⟨_, _, rfl, by decide⟩
  | integer n =>
    show ∃ c cs, integerSource n = c :: cs ∧ c ≠ '='
    unfold integerSource
    split
    · exact ⟨_, _, rfl, by decide⟩
    · have := digit (Nat.toDigits_ne_nil (n := n.toInt.natAbs) (b := 10)) (Decimal.toDigits_isDigit _) []
      rwa [List.append_nil] at this
  | double x =>
    show ∃ c cs, x.source = c :: cs ∧ c ≠ '='
    unfold Double.source
    split
    · exact ⟨_, _, rfl, by decide⟩
    · cases x.negative with
      | true => exact ⟨_, _, rfl, by decide⟩
      | false =>
        cases hf : x.isFinite with
        | true =>
          obtain ⟨c, cs, hc, hd⟩ := (Double.sourceParts_reads hf).1.pointed_head
          exact ⟨c, cs, by simp [Double.sourceMagnitude_eq, hc], fun he => by rw [he] at hd; cases hd⟩
        | false => exact ⟨_, _, rfl, by decide⟩
  | date d =>
    have hne : Date.padded 2 d.day ≠ [] := fun he => by
      rw [Date.padded_eq, List.append_eq_nil_iff] at he
      exact Nat.toDigits_ne_nil he.2
    show ∃ c cs, d.dayFirst = c :: cs ∧ c ≠ '='
    rw [Date.dayFirst, List.append_assoc]
    exact digit hne (Date.padded_isDigit 2 d.day) _

end Literal

/-! ## Operators -/

/-- A binary operator is written between blanks. -/
theorem BinaryOp.lexes {op : BinaryOp} (h : op.hasSyntax = true) : ∃ t, ofKind? t.kind = some op ∧
    ∀ {rest us}, Lexes rest us → Lexes (op.symbol.toList ++ ' ' :: rest) (t :: us) := by
  have mark {c : Char} {k : Kind} (hc : mark? c = some k) (hk : ofKind? k = some op) : ∃ t, ofKind? t.kind = some op ∧
      ∀ {rest us}, Lexes rest us → Lexes (c :: ' ' :: rest) (t :: us) := ⟨_, hk, fun hl => .mark hc (.blank rfl hl)⟩
  have alone {c : Char} {p : Pair} {k : Kind} (hc : pair? c = some p) (ha : p.alone = some k) (hp : ' ' ≠ p.second)
      (hk : ofKind? k = some op) : ∃ t, ofKind? t.kind = some op ∧
      ∀ {rest us}, Lexes rest us → Lexes (c :: ' ' :: rest) (t :: us) :=
    ⟨_, hk, fun hl => .alone hc ha (fun d hd => by cases hd; exact hp) (.blank rfl hl)⟩
  have together {c : Char} {p : Pair} (hc : pair? c = some p) (hk : ofKind? p.together = some op) :
      ∃ t, ofKind? t.kind = some op ∧ ∀ {rest us}, Lexes rest us → Lexes (c :: p.second :: ' ' :: rest) (t :: us) :=
    ⟨_, hk, fun hl => .together hc (.blank rfl hl)⟩
  have word {c : Char} {cs : List Char} (hc : startsName c = true) (hcs : cs.all continuesName = true)
      (hk : ofKind? (wordKind (c :: cs)) = some op) : ∃ t, ofKind? t.kind = some op ∧
      ∀ {rest us}, Lexes rest us → Lexes (c :: cs ++ ' ' :: rest) (t :: us) :=
    ⟨_, hk, fun hl => .keyword rfl hc hcs (fun d hd => by cases hd; rfl) (.blank rfl hl)⟩
  cases op with
  | exponent => exact mark (c := '^') rfl rfl
  | multiply => exact mark (c := '*') rfl rfl
  | divide => exact mark (c := '/') rfl rfl
  | modulo => exact mark (c := '%') rfl rfl
  | add => exact mark (c := '+') rfl rfl
  | subtract => exact mark (c := '-') rfl rfl
  | less => exact alone (c := '<') rfl rfl (by decide) rfl
  | lessEqual => exact together (c := '<') rfl rfl
  | greater => exact alone (c := '>') rfl rfl (by decide) rfl
  | greaterEqual => exact together (c := '>') rfl rfl
  | equal => exact together (c := '=') rfl rfl
  | notEqual => exact together (c := '!') rfl rfl
  | and => exact word (c := 'a') rfl rfl rfl
  | or => exact word (c := 'o') rfl rfl rfl
  | shiftLeft => cases h
  | shiftRight => cases h
  | bitAnd => cases h
  | bitOr => cases h
  | bitXor => cases h

/-- A unary operator touches its operand, which does not start with an equals sign. -/
theorem UnaryOp.lexes {op : UnaryOp} (h : op.hasSyntax = true) : ∃ t, ofKind? t.kind = some op ∧
    ∀ {rest us}, (∀ d ∈ rest.head?, d ≠ '=') → Lexes rest us → Lexes (op.symbol.toList ++ rest) (t :: us) := by
  cases op with
  | negate => exact ⟨⟨.minus, "-"⟩, rfl, fun _ hl => .mark (c := '-') rfl hl⟩
  | invert => exact ⟨⟨.tilde, "~"⟩, rfl, fun _ hl => .mark (c := '~') rfl hl⟩
  | not => exact ⟨⟨.bang, "!"⟩, rfl, fun hn hl => .alone (c := '!') rfl rfl hn hl⟩
  | increment => cases h
  | decrement => cases h

/-! ## Expressions -/

theorem Expr.source_head {e : Expr} (h : e.Shaped) : ∃ c cs, e.source = c :: cs ∧ c ≠ '=' := by
  have name {n : String} (hn : IsName n) (rest : List Char) : ∃ c cs, n.toList ++ rest = c :: cs ∧ c ≠ '=' := by
    obtain ⟨c, cs, he, hc, -⟩ := hn.identifier
    exact ⟨c, _, by rw [he]; rfl, fun he => by rw [he] at hc; cases hc⟩
  cases e with
  | literal v => exact v.source_head
  | var n =>
    have := name h []
    rwa [List.append_nil] at this
  | call f es =>
    simp only [Expr.source, List.append_assoc]
    exact name h.1 _
  | element a i =>
    simp only [Expr.source, List.append_assoc]
    exact name h.1 _
  | unary op e => cases op <;> exact ⟨_, _, rfl, by decide⟩
  | binary op l r => exact ⟨_, _, rfl, by decide⟩

theorem joinWith_cons (separator a b : List Char) (l : List (List Char)) :
    joinWith separator (a :: b :: l) = a ++ separator ++ joinWith separator (b :: l) := by
  simp [joinWith, List.intercalate]

theorem joinWith_singleton (separator a : List Char) : joinWith separator [a] = a := by
  simp [joinWith, List.intercalate]

theorem Grammar.Expression.of_atom {x y : List Token} {e : Expr} (h : Atom x e y) : Expression x e y :=
  .chain h .nil .operand

/-- One operator between two atoms. -/
theorem Grammar.Expression.of_binary {t : Token} {x y z : List Token} {op : BinaryOp} {l r : Expr} (hl : Atom x l (t :: y))
    (hop : BinaryOp.ofKind? t.kind = some op) (hr : Atom y r z) : Expression x (.binary op l r) z :=
  .chain hl (.cons hop hr .nil) (.split .operand .operand nofun nofun : Grouped l ([] ++ [(op, r)]) (.binary op l r))

theorem Apart.of_mark {c : Char} {cs : List Char} (h : c ∈ [' ', ')', ']', ',', '\n']) : Apart (c :: cs) := by
  refine .cons ?_
  simp only [List.mem_cons, List.not_mem_nil, or_false] at h
  rcases h with rfl | rfl | rfl | rfl | rfl <;> decide

mutual

/-- An expression is written as an atom. -/
theorem Expr.writes : ∀ {e : Expr}, e.Shaped → (∀ v ∈ e.literals, v.Readable) →
    ∃ ts, Writes e.source ts ∧ ∀ x, Atom (ts ++ x) e.reread x
  | .literal v, _, hv => Literal.writes (hv v (List.mem_singleton.mpr rfl))
  | .var n, hn, _ => ⟨[⟨.name, n⟩], fun hr hl => IsName.lexes hn hr.word hl, fun x => .var (IsName.named hn)⟩
  | .call f es, ⟨hf, hne, hes⟩, hv => by
    obtain ⟨ts, hlex, hatom⟩ := Expr.allWrites hne hes hv
    refine ⟨⟨.name, f⟩ :: ⟨.openParen, "("⟩ :: ts, fun {rest us} _ hl => ?_, fun x => .call hf.named rfl (hatom x)⟩
    have := hf.lexes (fun d hd => by cases hd; rfl) (.mark (c := '(') rfl (hlex hl))
    simpa [Expr.source] using this
  | .element a i, ⟨ha, hi⟩, hv => by
    obtain ⟨ts, hlex, hatom⟩ := Expr.writes hi hv
    refine ⟨⟨.name, a⟩ :: ⟨.openBracket, "["⟩ :: (ts ++ [⟨.closeBracket, "]"⟩]), fun {rest us} _ hl => ?_, fun x => ?_⟩
    · have := ha.lexes (fun d hd => by cases hd; rfl)
        (.mark (c := '[') rfl (hlex (.of_mark (by decide)) (.mark (c := ']') rfl hl)))
      simpa [Expr.source] using this
    · have := Atom.element (t := ⟨.name, a⟩) (o := ⟨.openBracket, "["⟩) ha.named rfl
        (.of_atom (hatom (⟨.closeBracket, "]"⟩ :: x))) rfl
      simpa [Expr.reread] using this
  | .unary op e, ⟨hop, he⟩, hv => by
    obtain ⟨ts, hlex, hatom⟩ := Expr.writes he hv
    obtain ⟨t, hk, hop⟩ := UnaryOp.lexes hop
    refine ⟨t :: ts, fun {rest us} hr hl => ?_, fun x => .unary hk (hatom x)⟩
    obtain ⟨c, cs, hc, hne⟩ := Expr.source_head he
    have hhead : ∀ d ∈ (e.source ++ rest).head?, d ≠ '=' := fun d hd => by rw [hc] at hd; cases hd; exact hne
    have := hop hhead (hlex hr hl)
    simpa [Expr.source] using this
  | .binary op l r, ⟨hop, hl, hr⟩, hv => by
    obtain ⟨hvl, hvr⟩ := List.forall_mem_append.mp hv
    obtain ⟨tl, hlexl, hatoml⟩ := Expr.writes hl hvl
    obtain ⟨tr, hlexr, hatomr⟩ := Expr.writes hr hvr
    obtain ⟨t, hk, hop⟩ := BinaryOp.lexes hop
    refine ⟨⟨.openParen, "("⟩ :: (tl ++ t :: (tr ++ [⟨.closeParen, ")"⟩])), fun {rest us} _ hl => ?_, fun x => ?_⟩
    · have := Lexes.mark (c := '(') rfl (hlexl (.of_mark (by decide)) (.blank (c := ' ') rfl
        (hop (hlexr (.of_mark (by decide)) (.mark (c := ')') rfl hl)))))
      simpa [Expr.source] using this
    · have := Atom.inner (o := ⟨.openParen, "("⟩) rfl
        (.of_binary (hatoml _) hk (hatomr (⟨.closeParen, ")"⟩ :: x))) rfl
      simpa [Expr.reread] using this

/-- Arguments are written up to the parenthesis that closes them. -/
theorem Expr.allWrites : ∀ {es : List Expr}, es ≠ [] → Expr.AllShaped es → (∀ v ∈ Expr.allLiterals es, v.Readable) →
    ∃ ts, (∀ {rest us}, Lexes rest us → Lexes (joinWith ", ".toList (Expr.sources es) ++ ')' :: rest) (ts ++ us)) ∧
      ∀ x, Arguments (ts ++ x) (Expr.allReread es) x
  | [], hne, _, _ => absurd rfl hne
  | [e], _, ⟨he, _⟩, hv => by
    obtain ⟨ts, hlex, hatom⟩ := Expr.writes he (List.forall_mem_append.mp hv).1
    refine ⟨ts ++ [⟨.closeParen, ")"⟩], fun {rest us} hl => ?_, fun x => ?_⟩
    · have := hlex (.of_mark (by decide)) (.mark (c := ')') rfl hl)
      simpa [Expr.sources, joinWith_singleton] using this
    · have := Arguments.one (.of_atom (hatom (⟨.closeParen, ")"⟩ :: x))) rfl
      simpa [Expr.allReread] using this
  | e :: e' :: es, _, ⟨he, hes⟩, hv => by
    obtain ⟨hve, hves⟩ := List.forall_mem_append.mp hv
    obtain ⟨ts, hlex, hatom⟩ := Expr.writes he hve
    obtain ⟨ts', hlex', hargs⟩ := Expr.allWrites (List.cons_ne_nil e' es) hes hves
    refine ⟨ts ++ ⟨.comma, ","⟩ :: ts', fun {rest us} hl => ?_, fun x => ?_⟩
    · have := hlex (.of_mark (by decide)) (.mark (c := ',') rfl (.blank (c := ' ') rfl (hlex' hl)))
      simpa [Expr.sources, joinWith_cons] using this
    · have := Arguments.more (.of_atom (hatom (⟨.comma, ","⟩ :: (ts' ++ x)))) rfl (hargs x)
      simpa [Expr.allReread] using this

end

end ScriptLang
