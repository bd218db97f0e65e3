/-
  ScriptLang.Proofs.Tree.Indentation — what the depth of a printed statement changes.

  The text of a statement consists of code and of the contents of its strings. One level
  further in, the code has four blanks more after every line feed, and the contents of the
  strings are the same.
  - `Stmt.indented_chunksAt`: so it is at every depth, if no name has a line feed.
  - `Scope.source_append`: the text of two scopes put together is the text of the one and then
    of the other.
  - `Printer.indents`: both, of the printer that keeps its depth.
-/

import ScriptLang.Proofs.Tree.Printer
import ScriptLang.Proofs.Tree.WellFormed

namespace ScriptLang

/-! ## Chunks -/

/-- A part of a printed text. -/
inductive Chunk where
  | code (text : List Char)
  /-- What stands between the quotes of a string. -/
  | contents (text : List Char)

namespace Chunk

def text : Chunk → List Char
  | code text | contents text => text

def contents? : Chunk → Option (List Char)
  | code _ => none
  | contents text => some text

/-- One level further in: four blanks more after every line feed of code. -/
def indented : Chunk → Chunk
  | code text => code (text.flatMap fun c => if c = '\n' then c :: indent 1 else [c])
  | contents text => contents text

/-- Chunks one after the other. -/
def textOf (chunks : List Chunk) : List Char := chunks.flatMap text

theorem indented_code {text : List Char} (h : '\n' ∉ text) : (code text).indented = code text := by
  have same : (text.flatMap fun c => if c = '\n' then c :: indent 1 else [c]) = text.flatMap fun c => [c] := by
    refine congrArg List.flatten (List.map_congr_left fun c hc => if_neg ?_)
    rintro rfl
    exact h hc
  rw [indented, same, List.flatMap_singleton']

/-- What takes chunks one by one takes them between separators. -/
theorem apply_intercalate {α β : Type} {f : List α → List β} (hnil : f [] = [])
    (happend : ∀ x y, f (x ++ y) = f x ++ f y) (separator : List α) :
    ∀ xs : List (List α), f (separator.intercalate xs) = (f separator).intercalate (xs.map f)
  | [] => by simpa [List.intercalate] using hnil
  | [x] => by simp [List.intercalate]
  | x :: y :: xs => by
    have ih := apply_intercalate hnil happend separator (y :: xs)
    simp only [List.intercalate, List.intersperse_cons_cons, List.flatten_cons, happend, List.map_cons] at ih ⊢
    rw [ih]

/-- A word or a name of the code. -/
def word (text : String) : List Chunk := [code text.toList]

/-- A mark of the code. -/
def mark (c : Char) : List Chunk := [code [c]]

/-- The line feed before a line at the given depth, and the indentation of the line: in one chunk,
    so that one level further in the chunks correspond. -/
def newline (depth : Nat) : List Chunk := [code ('\n' :: indent depth)]

/-- A block at the given depth around the chunks of its lines, each after a line feed. -/
def braced (depth : Nat) (lines : List Chunk) : List Chunk := mark '{' ++ lines ++ newline depth ++ mark '}'

end Chunk

open Chunk

/-! ## The chunks of a tree -/

def Literal.contents? : Literal → Option (List Char)
  | .string value => some value.toList
  | _ => none

def Literal.chunks : Literal → List Chunk
  | .string value =>
    if '"' ∈ value.toList then mark '\'' ++ [contents value.toList] ++ mark '\''
    else mark '"' ++ [contents value.toList] ++ mark '"'
  | value => [code value.source]

mutual

def Expr.chunks : Expr → List Chunk
  | .literal value => value.chunks
  | .var name => word name
  | .call function arguments =>
    word function ++ (mark '(' ++ (word ", ").intercalate (Expr.allChunks arguments)) ++ mark ')'
  | .element array index => word array ++ (mark '[' ++ index.chunks) ++ mark ']'
  | .unary op operand => word op.symbol ++ operand.chunks
  | .binary op left right =>
    mark '(' ++ left.chunks ++ (mark ' ' ++ word op.symbol) ++ (mark ' ' ++ right.chunks) ++ mark ')'

def Expr.allChunks : List Expr → List (List Chunk)
  | [] => []
  | e :: es => e.chunks :: Expr.allChunks es

end

mutual

def Stmt.chunksAt (depth : Nat) : Stmt → List Chunk
  | .declare name value => word "let " ++ word name ++ word " = " ++ value.chunks
  | .declareArray name length => word "let " ++ word name ++ word " = [" ++ length.chunks ++ mark ']'
  | .assign name value => word name ++ word " = " ++ value.chunks
  | .assignElement array index value => word array ++ (mark '[' ++ index.chunks) ++ word "] = " ++ value.chunks
  | .ifThen condition body =>
    word "if " ++ condition.chunks ++ (mark ' ' ++ Chunk.braced depth (Stmt.lineChunksAt (depth + 1) body))
  | .ifElse condition body otherwise =>
    word "if " ++ condition.chunks ++ (mark ' ' ++ Chunk.braced depth (Stmt.lineChunksAt (depth + 1) body)) ++
      word " else " ++ Chunk.braced depth (Stmt.lineChunksAt (depth + 1) otherwise)
  | .whileLoop condition body =>
    word "while " ++ condition.chunks ++ (mark ' ' ++ Chunk.braced depth (Stmt.lineChunksAt (depth + 1) body))
  | .define function parameters body =>
    word "def " ++ word function ++ (mark '(' ++ (word ", ").intercalate (parameters.map word)) ++ word ") " ++
      Chunk.braced depth (Stmt.lineChunksAt (depth + 1) body)
  | .returns none => word "return"
  | .returns (some value) => word "return " ++ value.chunks
  | .block body => Chunk.braced depth (Stmt.lineChunksAt (depth + 1) body)
  | .expression value => value.chunks

/-- The statements of a scope at the given depth, each after a line feed. -/
def Stmt.lineChunksAt (depth : Nat) : List Stmt → List Chunk
  | [] => []
  | s :: ss => newline depth ++ s.chunksAt depth ++ Stmt.lineChunksAt depth ss

end

/-! ## Names -/

/-- Names without line feeds. -/
abbrev OnOneLine (names : List String) : Prop := ∀ name ∈ names, '\n' ∉ name.toList

mutual

/-- The names of variables, arrays and functions in an expression. -/
def Expr.names : Expr → List String
  | .literal _ => []
  | .var name => [name]
  | .call function arguments => function :: Expr.allNames arguments
  | .element array index => array :: index.names
  | .unary _ operand => operand.names
  | .binary _ left right => left.names ++ right.names

def Expr.allNames : List Expr → List String
  | [] => []
  | e :: es => e.names ++ Expr.allNames es

end

mutual

def Stmt.names : Stmt → List String
  | .declare name value | .declareArray name value | .assign name value => name :: value.names
  | .assignElement array index value => array :: (index.names ++ value.names)
  | .ifThen condition body | .whileLoop condition body => condition.names ++ Stmt.allNames body
  | .ifElse condition body otherwise => condition.names ++ (Stmt.allNames body ++ Stmt.allNames otherwise)
  | .define function parameters body => function :: (parameters ++ Stmt.allNames body)
  | .returns none => []
  | .returns (some value) | .expression value => value.names
  | .block body => Stmt.allNames body

def Stmt.allNames : List Stmt → List String
  | [] => []
  | s :: ss => s.names ++ Stmt.allNames ss

end

/-! ## Their texts -/

namespace Chunk

theorem textOf_nil : textOf [] = [] := rfl

theorem textOf_append (x y : List Chunk) : textOf (x ++ y) = textOf x ++ textOf y := List.flatMap_append

theorem textOf_word (text : String) : textOf (word text) = text.toList := List.append_nil _

theorem textOf_mark (c : Char) : textOf (mark c) = [c] := rfl

theorem textOf_newline (depth : Nat) : textOf (newline depth) = '\n' :: indent depth := List.append_nil _

theorem textOf_intercalate (texts : List (List Chunk)) :
    textOf ((word ", ").intercalate texts) = joinWith ", ".toList (texts.map textOf) := by
  rw [apply_intercalate textOf_nil textOf_append, textOf_word, joinWith]

/-- Lines after line feeds, before the line feed of the brace, are lines before line feeds. -/
theorem textOf_braced (depth : Nat) {chunks : List Chunk} {lines : List (List Char)}
    (h : textOf chunks ++ ['\n'] = '\n' :: ended lines) :
    textOf (braced depth chunks) = ScriptLang.braced depth lines := by
  rw [braced_eq, braced]
  simp only [textOf_append, textOf_mark, textOf_newline]
  calc ['{'] ++ textOf chunks ++ '\n' :: indent depth ++ ['}']
      = '{' :: (textOf chunks ++ ['\n'] ++ (indent depth ++ ['}'])) := by simp
    _ = '{' :: '\n' :: (ended lines ++ (indent depth ++ ['}'])) := by rw [h]; rfl

end Chunk

theorem Literal.textOf_chunks (v : Literal) : textOf v.chunks = v.source := by
  cases v with
  | string value =>
    simp only [chunks, source, quoted]
    split <;> simp [textOf, mark, text]
  | _ => simp [chunks, textOf, text]

mutual

theorem Expr.textOf_chunks : ∀ e : Expr, textOf e.chunks = e.source
  | .literal value => value.textOf_chunks
  | .var name => textOf_word name
  | .call _ arguments => by
    simp only [chunks, textOf_append, textOf_word, textOf_mark, textOf_intercalate, Expr.map_textOf_allChunks arguments]
    rfl
  | .element _ index => by
    simp only [chunks, textOf_append, textOf_word, textOf_mark, index.textOf_chunks]
    rfl
  | .unary _ operand => by
    simp only [chunks, textOf_append, textOf_word, operand.textOf_chunks]
    rfl
  | .binary _ left right => by
    simp only [chunks, textOf_append, textOf_word, textOf_mark, left.textOf_chunks, right.textOf_chunks]
    simp [source]

theorem Expr.map_textOf_allChunks : ∀ es : List Expr, (Expr.allChunks es).map textOf = Expr.sources es
  | [] => rfl
  | e :: es => by simp only [allChunks, List.map_cons, e.textOf_chunks, Expr.map_textOf_allChunks es, sources]

end

mutual

theorem Stmt.textOf_chunksAt (depth : Nat) : ∀ s : Stmt, textOf (s.chunksAt depth) = s.sourceAt depth
  | .declare _ value | .declareArray _ value | .assign _ value | .returns (some value) => by
    simp only [chunksAt, textOf_append, textOf_word, textOf_mark, value.textOf_chunks]
    rfl
  | .assignElement _ index value => by
    simp only [chunksAt, textOf_append, textOf_word, textOf_mark, index.textOf_chunks, value.textOf_chunks]
    rfl
  | .ifThen condition body | .whileLoop condition body => by
    simp only [chunksAt, textOf_append, textOf_word, textOf_mark, condition.textOf_chunks,
      textOf_braced depth (Stmt.textOf_lineChunksAt (depth + 1) body)]
    rfl
  | .ifElse condition body otherwise => by
    simp only [chunksAt, textOf_append, textOf_word, textOf_mark, condition.textOf_chunks,
      textOf_braced depth (Stmt.textOf_lineChunksAt (depth + 1) body),
      textOf_braced depth (Stmt.textOf_lineChunksAt (depth + 1) otherwise)]
    rfl
  | .define _ parameters body => by
    have hwords : (parameters.map word).map textOf = parameters.map String.toList := by
      rw [List.map_map]
      exact List.map_congr_left fun p _ => textOf_word p
    simp only [chunksAt, textOf_append, textOf_word, textOf_mark, textOf_intercalate, hwords,
      textOf_braced depth (Stmt.textOf_lineChunksAt (depth + 1) body)]
    rfl
  | .returns none => textOf_word _
  | .block body => textOf_braced depth (Stmt.textOf_lineChunksAt (depth + 1) body)
  | .expression value => value.textOf_chunks

theorem Stmt.textOf_lineChunksAt (depth : Nat) : ∀ ss : List Stmt,
    textOf (Stmt.lineChunksAt depth ss) ++ ['\n'] = '\n' :: ended (Stmt.linesAt depth ss)
  | [] => rfl
  | s :: ss => by
    have ih := Stmt.textOf_lineChunksAt depth ss
    simp only [lineChunksAt, linesAt, textOf_append, textOf_newline, s.textOf_chunksAt depth, List.append_assoc, ih]
    simp [ended]

end

/-! ## Their strings -/

namespace Chunk

/-- The contents of strings among chunks. -/
def stringsOf (chunks : List Chunk) : List (List Char) := chunks.filterMap contents?

theorem stringsOf_nil : stringsOf [] = [] := rfl

theorem stringsOf_append (x y : List Chunk) : stringsOf (x ++ y) = stringsOf x ++ stringsOf y := List.filterMap_append

theorem stringsOf_word (text : String) : stringsOf (word text) = [] := rfl

theorem stringsOf_mark (c : Char) : stringsOf (mark c) = [] := rfl

theorem stringsOf_newline (depth : Nat) : stringsOf (newline depth) = [] := rfl

theorem stringsOf_intercalate (texts : List (List Chunk)) :
    stringsOf ((word ", ").intercalate texts) = texts.flatMap stringsOf := by
  have together : ∀ xs : List (List (List Char)), [].intercalate xs = xs.flatten := by
    intro xs
    induction xs with
    | nil => rfl
    | cons x xs ih =>
      cases xs with
      | nil => rfl
      | cons y xs =>
        rw [List.intercalate, List.intersperse_cons_cons, List.flatten_cons, List.flatten_cons, List.nil_append]
        exact congrArg (x ++ ·) ih
  rw [apply_intercalate stringsOf_nil stringsOf_append, stringsOf_word, together, List.flatMap_def]

theorem stringsOf_braced (depth : Nat) (chunks : List Chunk) : stringsOf (braced depth chunks) = stringsOf chunks := by
  simp only [braced, stringsOf_append, stringsOf_mark, stringsOf_newline, List.nil_append, List.append_nil]

end Chunk

theorem Literal.stringsOf_chunks (v : Literal) : stringsOf v.chunks = [v].filterMap contents? := by
  cases v with
  | string value =>
    simp only [chunks]
    split <;> rfl
  | _ => rfl

mutual

theorem Expr.stringsOf_chunks : ∀ e : Expr, stringsOf e.chunks = e.literals.filterMap Literal.contents?
  | .literal value => value.stringsOf_chunks
  | .var name => rfl
  | .call _ arguments => by
    simp only [chunks, stringsOf_append, stringsOf_word, stringsOf_mark, stringsOf_intercalate, List.nil_append,
      List.append_nil, Expr.stringsOf_allChunks arguments, literals]
  | .element _ index | .unary _ index => by
    simp only [chunks, stringsOf_append, stringsOf_word, stringsOf_mark, index.stringsOf_chunks, literals,
      List.nil_append, List.append_nil]
  | .binary _ left right => by
    simp only [chunks, stringsOf_append, stringsOf_word, stringsOf_mark, left.stringsOf_chunks, right.stringsOf_chunks,
      literals, List.nil_append, List.append_nil, List.filterMap_append]

theorem Expr.stringsOf_allChunks : ∀ es : List Expr,
    (Expr.allChunks es).flatMap stringsOf = (Expr.allLiterals es).filterMap Literal.contents?
  | [] => rfl
  | e :: es => by
    simp only [allChunks, allLiterals, List.flatMap_cons, e.stringsOf_chunks,
      Expr.stringsOf_allChunks es, List.filterMap_append]

end

mutual

theorem Stmt.stringsOf_chunksAt (depth : Nat) : ∀ s : Stmt,
    stringsOf (s.chunksAt depth) = s.literals.filterMap Literal.contents?
  | .declare _ value | .declareArray _ value | .assign _ value | .returns (some value) | .expression value => by
    simp only [chunksAt, literals, stringsOf_append, stringsOf_word, stringsOf_mark, value.stringsOf_chunks,
      List.nil_append, List.append_nil]
  | .assignElement _ index value => by
    simp only [chunksAt, literals, stringsOf_append, stringsOf_word, stringsOf_mark, index.stringsOf_chunks,
      value.stringsOf_chunks, List.nil_append, List.append_nil, List.filterMap_append]
  | .ifThen condition body | .whileLoop condition body => by
    simp only [chunksAt, literals, stringsOf_append, stringsOf_word, stringsOf_mark, condition.stringsOf_chunks,
      stringsOf_braced, Stmt.stringsOf_lineChunksAt (depth + 1) body, List.nil_append, List.filterMap_append]
  | .ifElse condition body otherwise => by
    simp only [chunksAt, literals, stringsOf_append, stringsOf_word, stringsOf_mark, condition.stringsOf_chunks,
      stringsOf_braced, Stmt.stringsOf_lineChunksAt (depth + 1) body, Stmt.stringsOf_lineChunksAt (depth + 1) otherwise,
      List.nil_append, List.append_assoc, List.filterMap_append]
  | .define _ parameters body => by
    have hwords : (parameters.map word).flatMap stringsOf = [] := by simp [stringsOf_word]
    simp only [chunksAt, literals, stringsOf_append, stringsOf_word, stringsOf_mark, stringsOf_intercalate, hwords,
      stringsOf_braced, Stmt.stringsOf_lineChunksAt (depth + 1) body, List.nil_append]
  | .returns none => rfl
  | .block body => by
    simp only [chunksAt, literals, stringsOf_braced, Stmt.stringsOf_lineChunksAt (depth + 1) body]

theorem Stmt.stringsOf_lineChunksAt (depth : Nat) : ∀ ss : List Stmt,
    stringsOf (Stmt.lineChunksAt depth ss) = (Stmt.allLiterals ss).filterMap Literal.contents?
  | [] => rfl
  | s :: ss => by
    simp only [lineChunksAt, allLiterals, stringsOf_append, stringsOf_newline, s.stringsOf_chunksAt depth,
      Stmt.stringsOf_lineChunksAt depth ss, List.nil_append, List.filterMap_append]

end

/-! ## One level further in -/

namespace Chunk

theorem indented_word {text : String} (h : '\n' ∉ text.toList) : (word text).map indented = word text := by
  rw [word, List.map_singleton, indented_code h]

theorem indented_mark {c : Char} (h : c ≠ '\n') : (mark c).map indented = mark c := by
  rw [mark, List.map_singleton, indented_code (by simpa using h.symm)]

theorem indented_newline (depth : Nat) : (newline depth).map indented = newline (depth + 1) := by
  have hblanks : (code (indent depth)).indented = code (indent depth) :=
    indented_code fun h => by cases (List.mem_replicate.mp h).2
  have hindent : indent 1 ++ indent depth = indent (depth + 1) := by
    rw [indent, indent, List.replicate_append_replicate, Nat.add_comm, ← Nat.mul_add]
    rfl
  rw [indented, code.injEq] at hblanks
  rw [newline, List.map_singleton, indented, List.flatMap_cons, if_pos rfl, hblanks, List.cons_append, hindent]
  rfl

theorem indented_braced (depth : Nat) (chunks : List Chunk) :
    (braced depth chunks).map indented = braced (depth + 1) (chunks.map indented) := by
  simp only [braced, List.map_append, indented_newline]
  rw [indented_mark (by decide), indented_mark (by decide)]

theorem indented_intercalate {texts : List (List Chunk)} (h : ∀ chunks ∈ texts, chunks.map indented = chunks) :
    ((word ", ").intercalate texts).map indented = (word ", ").intercalate texts := by
  rw [apply_intercalate List.map_nil (fun _ _ => List.map_append), indented_word (by decide), List.map_congr_left h,
    List.map_id']

end Chunk

/-- A literal that is no string has no line feed. -/
theorem Literal.newline_not_mem {v : Literal} (h : v.contents? = none) : '\n' ∉ v.source := by
  have digits {cs : List Char} (h : ∀ c ∈ cs, c.isDigit = true) : '\n' ∉ cs := fun hn => by cases h _ hn
  have signed {p : Prop} [Decidable p] {cs : List Char} (h : '\n' ∉ cs) :
      '\n' ∉ (if p then ['-'] else []) ++ cs := by
    split
    · simpa using h
    · exact h
  cases v with
  | empty => decide
  | boolean value => cases value <;> decide
  | string => cases h
  | integer n => exact signed (digits (Decimal.toDigits_isDigit _))
  | double x =>
    rw [source, Double.source]
    split
    · decide
    · refine signed ?_
      split
      · rename_i hf
        rw [Double.sourceMagnitude_eq]
        intro hn
        rcases (Double.sourceParts_reads hf).1.digit_or_point _ hn with hd | hd <;> cases hd
      · decide
  | date day =>
    have hpad (width n : Nat) : '\n' ∉ Date.padded width n := digits (Date.padded_isDigit width n)
    have hyear : '\n' ∉ Date.yearChars day.year := by
      unfold Date.yearChars
      split
      · simpa using hpad 4 _
      · split
        · simpa using hpad 4 _
        · exact hpad 4 _
    simp [source, Date.dayFirst, hpad, hyear]

theorem Literal.indented_chunks (v : Literal) : v.chunks.map indented = v.chunks := by
  cases hv : v.contents? with
  | none =>
    have hp : v.chunks = [code v.source] := by cases v <;> first | rfl | cases hv
    rw [hp, List.map_singleton, indented_code (newline_not_mem hv)]
  | some text =>
    cases v with
    | string value =>
      simp only [chunks]
      split
      · rw [List.map_append, List.map_append, indented_mark (by decide)]; rfl
      · rw [List.map_append, List.map_append, indented_mark (by decide)]; rfl
    | _ => cases hv

mutual

theorem Expr.indented_chunks : ∀ e : Expr, OnOneLine e.names → e.chunks.map indented = e.chunks
  | .literal value, _ => value.indented_chunks
  | .var name, h => indented_word (h name (List.mem_singleton.mpr rfl))
  | .call _ arguments, h => by
    obtain ⟨hf, ha⟩ := List.forall_mem_cons.mp h
    simp (disch := decide) only [chunks, List.map_append, indented_word hf, indented_mark,
      indented_intercalate (Expr.indented_allChunks arguments ha)]
  | .element _ index, h => by
    obtain ⟨ha, hi⟩ := List.forall_mem_cons.mp h
    simp (disch := decide) only [chunks, List.map_append, indented_word ha, indented_mark, index.indented_chunks hi]
  | .unary op operand, h => by
    have hop : '\n' ∉ op.symbol.toList := by cases op <;> decide
    simp only [chunks, List.map_append, indented_word hop, operand.indented_chunks h]
  | .binary op left right, h => by
    obtain ⟨hl, hr⟩ := List.forall_mem_append.mp h
    have hop : '\n' ∉ op.symbol.toList := by cases op <;> decide
    simp (disch := decide) only [chunks, List.map_append, indented_word hop, indented_mark, left.indented_chunks hl,
      right.indented_chunks hr]

theorem Expr.indented_allChunks : ∀ es : List Expr, OnOneLine (Expr.allNames es) →
    ∀ chunks ∈ Expr.allChunks es, chunks.map indented = chunks
  | [], _ => nofun
  | e :: es, h => by
    obtain ⟨he, hes⟩ := List.forall_mem_append.mp h
    exact List.forall_mem_cons.mpr ⟨e.indented_chunks he, Expr.indented_allChunks es hes⟩

end

mutual

/-- One level further in, a statement has four blanks more after every line feed outside its
    strings. -/
theorem Stmt.indented_chunksAt (depth : Nat) : ∀ s : Stmt, OnOneLine s.names →
    (s.chunksAt depth).map indented = s.chunksAt (depth + 1)
  | .declare _ value, h | .declareArray _ value, h | .assign _ value, h => by
    obtain ⟨hn, hv⟩ := List.forall_mem_cons.mp h
    simp (disch := decide) only [chunksAt, List.map_append, indented_word hn, indented_word, indented_mark,
      value.indented_chunks hv]
  | .assignElement _ index value, h => by
    obtain ⟨ha, h⟩ := List.forall_mem_cons.mp h
    obtain ⟨hi, hv⟩ := List.forall_mem_append.mp h
    simp (disch := decide) only [chunksAt, List.map_append, indented_word ha, indented_word, indented_mark,
      index.indented_chunks hi, value.indented_chunks hv]
  | .ifThen condition body, h | .whileLoop condition body, h => by
    obtain ⟨hc, hb⟩ := List.forall_mem_append.mp h
    simp (disch := decide) only [chunksAt, List.map_append, indented_word, indented_mark, condition.indented_chunks hc,
      indented_braced, Stmt.indented_lineChunksAt (depth + 1) body hb]
  | .ifElse condition body otherwise, h => by
    obtain ⟨hc, h⟩ := List.forall_mem_append.mp h
    obtain ⟨hb, ho⟩ := List.forall_mem_append.mp h
    simp (disch := decide) only [chunksAt, List.map_append, indented_word, indented_mark, condition.indented_chunks hc,
      indented_braced, Stmt.indented_lineChunksAt (depth + 1) body hb,
      Stmt.indented_lineChunksAt (depth + 1) otherwise ho]
  | .define _ parameters body, h => by
    obtain ⟨hf, h⟩ := List.forall_mem_cons.mp h
    obtain ⟨hp, hb⟩ := List.forall_mem_append.mp h
    have hwords : ∀ chunks ∈ parameters.map word, chunks.map indented = chunks :=
      List.forall_mem_map.mpr fun p hmem => indented_word (hp p hmem)
    simp (disch := decide) only [chunksAt, List.map_append, indented_word hf, indented_word, indented_mark,
      indented_intercalate hwords, indented_braced, Stmt.indented_lineChunksAt (depth + 1) body hb]
  | .returns none, _ => indented_word (by decide)
  | .returns (some value), h => by
    simp (disch := decide) only [chunksAt, List.map_append, indented_word, value.indented_chunks h]
  | .block body, h => by
    simp only [chunksAt, indented_braced, Stmt.indented_lineChunksAt (depth + 1) body h]
  | .expression value, h => value.indented_chunks h

theorem Stmt.indented_lineChunksAt (depth : Nat) : ∀ ss : List Stmt, OnOneLine (Stmt.allNames ss) →
    (Stmt.lineChunksAt depth ss).map indented = Stmt.lineChunksAt (depth + 1) ss
  | [], _ => rfl
  | s :: ss, h => by
    obtain ⟨hs, hss⟩ := List.forall_mem_append.mp h
    simp only [lineChunksAt, List.map_append, indented_newline, s.indented_chunksAt depth hs,
      Stmt.indented_lineChunksAt depth ss hss]

end

/-! ## Statements and programs -/

theorem Scope.source_append {a b : Scope} (ha : a ≠ []) (hb : b ≠ []) :
    Scope.source (a ++ b) = a.source ++ b.source := by
  have lines_ne {c : Scope} (hc : c ≠ []) : Stmt.linesAt 0 c ≠ [] := by
    cases c with
    | nil => exact absurd rfl hc
    | cons s ss => nofun
  unfold Scope.source
  rw [Stmt.linesAt_append, joinWith_ended (lines_ne ha), joinWith_ended (lines_ne hb),
    joinWith_ended (List.append_ne_nil_of_left_ne_nil (lines_ne ha) _)]
  exact List.flatMap_append

/-- The printer that keeps its depth leaves it as it was after every statement, and writes the
    statement's source at that depth. One level further in it writes the same text, with four
    blanks more after every line feed of its code, and the contents of its strings as they were. A
    program is printed as its source, and two of them put together as the one and then the other. -/
theorem Printer.indents :
    (∀ (s : Stmt) (depth : Nat), OnOneLine s.names →
      (statement s).run depth = pure (s.sourceAt depth, depth) ∧
      textOf (s.chunksAt depth) = s.sourceAt depth ∧
      stringsOf (s.chunksAt depth) = s.literals.filterMap Literal.contents? ∧
      (statement s).run (depth + 1) = pure (textOf ((s.chunksAt depth).map indented), depth + 1)) ∧
    (∀ scope : Scope, program scope = scope.source) ∧
    ∀ a b : Scope, a ≠ [] → b ≠ [] → program (a ++ b) = program a ++ program b := by
  refine ⟨fun s depth h => ?_, program_eq, fun a b ha hb => ?_⟩
  · refine ⟨statement_run depth s, s.textOf_chunksAt depth, s.stringsOf_chunksAt depth, ?_⟩
    rw [statement_run, s.indented_chunksAt depth h, s.textOf_chunksAt]
  · rw [program_eq, program_eq, program_eq, Scope.source_append ha hb]

/-- A string over two lines, in a block before an empty block, at two depths. -/
theorem Printer.indents_two_lines :
    (statement (.block [.assign "s" (.literal (.string "p\nq")), .block []])).run 0 =
      pure ("\x7b\n    s = \"p\nq\"\n    \x7b\n    \x7d\n\x7d".toList, 0) ∧
    (statement (.block [.assign "s" (.literal (.string "p\nq")), .block []])).run 1 =
      pure ("\x7b\n        s = \"p\nq\"\n        \x7b\n        \x7d\n    \x7d".toList, 1) ∧
    program ([.assign "s" (.literal (.string "p\nq"))] ++ [.block []]) =
      program [.assign "s" (.literal (.string "p\nq"))] ++ program [.block []] := by
  have hnames : OnOneLine (Stmt.names (.block [.assign "s" (.literal (.string "p\nq")), .block []])) := by decide
  obtain ⟨hrun, -, -, hdeeper⟩ := indents.1 _ 0 hnames
  exact ⟨hrun.trans rfl, hdeeper.trans rfl, indents.2.2 _ _ nofun nofun⟩

end ScriptLang
