/-
  ScriptLang.Proofs.Tree.RoundTrip — writing a program and reading it back.

  - `Scope.source_reread`: reading again changes nothing in what is written.
  - `Scope.reread_eq_self`: without infinite doubles it changes nothing at all.
  - `parse_source`: the source of a program that was read is read as the same program, but
    for infinite doubles, and written the same.
  - `parse_image`: the programs without infinite doubles that texts give are the well-formed ones.
-/

import ScriptLang.Proofs.Grammar.Acceptance
import ScriptLang.Proofs.Tree.Lines

namespace ScriptLang

open Grammar

/-! ## Reading again -/

theorem Literal.source_reread {v : Literal} (h : v.Readable) : v.reread.source = v.source := by
  cases v with
  | double x =>
    cases hf : x.isFinite with
    | true => simp [Literal.reread, hf, Expr.source]
    | false =>
      rw [show (Literal.double x).reread = .var "inf" by simp [Literal.reread, hf]]
      exact (Literal.infinite_source hf h.wellFormed (h.number x rfl)).symm
  | _ => rfl

mutual

theorem Expr.source_reread : ∀ {e : Expr}, (∀ v ∈ e.literals, v.Readable) → e.reread.source = e.source
  | .literal v, h => Literal.source_reread (h v (List.mem_singleton.mpr rfl))
  | .var _, _ => rfl
  | .call f es, h => by simp only [Expr.reread, Expr.source, Expr.sources_reread h]
  | .element a i, h => by simp only [Expr.reread, Expr.source, Expr.source_reread (e := i) h]
  | .unary op e, h => by simp only [Expr.reread, Expr.source, Expr.source_reread (e := e) h]
  | .binary op l r, h => by
    obtain ⟨hl, hr⟩ := List.forall_mem_append.mp h
    simp only [Expr.reread, Expr.source, Expr.source_reread hl, Expr.source_reread hr]

theorem Expr.sources_reread : ∀ {es : List Expr}, (∀ v ∈ Expr.allLiterals es, v.Readable) →
    Expr.sources (Expr.allReread es) = Expr.sources es
  | [], _ => rfl
  | e :: es, h => by
    obtain ⟨he, hes⟩ := List.forall_mem_append.mp h
    simp only [Expr.allReread, Expr.sources, Expr.source_reread he, Expr.sources_reread hes]

end

mutual

theorem Stmt.sourceAt_reread : ∀ {s : Stmt} (depth : Nat), (∀ v ∈ s.literals, v.Readable) →
    s.reread.sourceAt depth = s.sourceAt depth
  | .declare n e, _, h =>
    congrArg ("let ".toList ++ n.toList ++ " = ".toList ++ ·) (Expr.source_reread h)
  | .declareArray n e, _, h =>
    congrArg ("let ".toList ++ n.toList ++ " = [".toList ++ · ++ [']']) (Expr.source_reread h)
  | .assign n e, _, h => congrArg (n.toList ++ " = ".toList ++ ·) (Expr.source_reread h)
  | .assignElement a i e, _, h => by
    obtain ⟨hi, he⟩ := List.forall_mem_append.mp h
    show a.toList ++ '[' :: i.reread.source ++ "] = ".toList ++ e.reread.source = _
    rw [Expr.source_reread hi, Expr.source_reread he]
    rfl
  | .ifThen e b, depth, h => by
    obtain ⟨he, hb⟩ := List.forall_mem_append.mp h
    show "if ".toList ++ e.reread.source ++ ' ' :: braced depth (Stmt.linesAt (depth + 1) (Stmt.allReread b)) = _
    rw [Expr.source_reread he, Stmt.linesAt_reread (depth + 1) hb]
    rfl
  | .ifElse e b b', depth, h => by
    obtain ⟨he, hb⟩ := List.forall_mem_append.mp h
    obtain ⟨hb, hb'⟩ := List.forall_mem_append.mp hb
    show "if ".toList ++ e.reread.source ++ ' ' :: braced depth (Stmt.linesAt (depth + 1) (Stmt.allReread b)) ++
      " else ".toList ++ braced depth (Stmt.linesAt (depth + 1) (Stmt.allReread b')) = _
    rw [Expr.source_reread he, Stmt.linesAt_reread (depth + 1) hb, Stmt.linesAt_reread (depth + 1) hb']
    rfl
  | .whileLoop e b, depth, h => by
    obtain ⟨he, hb⟩ := List.forall_mem_append.mp h
    show "while ".toList ++ e.reread.source ++ ' ' :: braced depth (Stmt.linesAt (depth + 1) (Stmt.allReread b)) = _
    rw [Expr.source_reread he, Stmt.linesAt_reread (depth + 1) hb]
    rfl
  | .define f ps b, depth, h =>
    congrArg (fun b => "def ".toList ++ f.toList ++ '(' :: joinWith ", ".toList (ps.map String.toList) ++ ") ".toList ++
      braced depth b) (Stmt.linesAt_reread (depth + 1) h)
  | .returns none, _, _ => rfl
  | .returns (some e), _, h => congrArg ("return ".toList ++ ·) (Expr.source_reread h)
  | .block b, depth, h => congrArg (braced depth) (Stmt.linesAt_reread (depth + 1) h)
  | .expression e, _, h => Expr.source_reread h

theorem Stmt.linesAt_reread : ∀ {ss : Scope} (depth : Nat), (∀ v ∈ Stmt.allLiterals ss, v.Readable) →
    Stmt.linesAt depth (Stmt.allReread ss) = Stmt.linesAt depth ss
  | [], _, _ => rfl
  | s :: ss, depth, h => by
    obtain ⟨hs, hss⟩ := List.forall_mem_append.mp h
    simp only [Stmt.allReread, Stmt.linesAt, Stmt.sourceAt_reread depth hs, Stmt.linesAt_reread depth hss]

end

theorem Scope.source_reread {scope : Scope} (h : scope.Formed) : Scope.source (Stmt.allReread scope) = scope.source := by
  unfold Scope.source
  rw [Stmt.linesAt_reread 0 h.literals]

theorem Literal.reread_eq_self {v : Literal} (h : v.Readable) (hf : ∀ x, v = .double x → x.magnitude ≠ Double.infinite) :
    v.reread = .literal v := by
  cases v with
  | double x =>
    have hnan : ¬ Double.infinite < x.magnitude := of_decide_eq_false (h.number x rfl)
    have hfin : x.isFinite = true := decide_eq_true (by have := hf x rfl; omega)
    simp [Literal.reread, hfin]
  | _ => rfl

mutual

theorem Expr.reread_eq_self : ∀ {e : Expr}, (∀ v ∈ e.literals, v.reread = .literal v) → e.reread = e
  | .literal v, h => h v (List.mem_singleton.mpr rfl)
  | .var _, _ => rfl
  | .call f es, h => congrArg (Expr.call f) (Expr.allReread_eq_self h)
  | .element a i, h => congrArg (Expr.element a) (Expr.reread_eq_self h)
  | .unary op e, h => congrArg (Expr.unary op) (Expr.reread_eq_self h)
  | .binary op l r, h => by
    obtain ⟨hl, hr⟩ := List.forall_mem_append.mp h
    rw [Expr.reread, Expr.reread_eq_self hl, Expr.reread_eq_self hr]

theorem Expr.allReread_eq_self : ∀ {es : List Expr}, (∀ v ∈ Expr.allLiterals es, v.reread = .literal v) →
    Expr.allReread es = es
  | [], _ => rfl
  | e :: es, h => by
    obtain ⟨he, hes⟩ := List.forall_mem_append.mp h
    rw [Expr.allReread, Expr.reread_eq_self he, Expr.allReread_eq_self hes]

end

mutual

theorem Stmt.reread_eq_self : ∀ {s : Stmt}, (∀ v ∈ s.literals, v.reread = .literal v) → s.reread = s
  | .declare n e, h => congrArg (Stmt.declare n) (Expr.reread_eq_self h)
  | .declareArray n e, h => congrArg (Stmt.declareArray n) (Expr.reread_eq_self h)
  | .assign n e, h => congrArg (Stmt.assign n) (Expr.reread_eq_self h)
  | .assignElement a i e, h => by
    obtain ⟨hi, he⟩ := List.forall_mem_append.mp h
    rw [Stmt.reread, Expr.reread_eq_self hi, Expr.reread_eq_self he]
  | .ifThen e b, h => by
    obtain ⟨he, hb⟩ := List.forall_mem_append.mp h
    rw [Stmt.reread, Expr.reread_eq_self he, Stmt.allReread_eq_self hb]
  | .ifElse e b b', h => by
    obtain ⟨he, hb⟩ := List.forall_mem_append.mp h
    obtain ⟨hb, hb'⟩ := List.forall_mem_append.mp hb
    rw [Stmt.reread, Expr.reread_eq_self he, Stmt.allReread_eq_self hb, Stmt.allReread_eq_self hb']
  | .whileLoop e b, h => by
    obtain ⟨he, hb⟩ := List.forall_mem_append.mp h
    rw [Stmt.reread, Expr.reread_eq_self he, Stmt.allReread_eq_self hb]
  | .define f ps b, h => congrArg (Stmt.define f ps) (Stmt.allReread_eq_self h)
  | .returns none, _ => rfl
  | .returns (some e), h => congrArg (Stmt.returns ∘ some) (Expr.reread_eq_self h)
  | .block b, h => congrArg Stmt.block (Stmt.allReread_eq_self h)
  | .expression e, h => congrArg Stmt.expression (Expr.reread_eq_self h)

theorem Stmt.allReread_eq_self : ∀ {ss : Scope}, (∀ v ∈ Stmt.allLiterals ss, v.reread = .literal v) →
    Stmt.allReread ss = ss
  | [], _ => rfl
  | s :: ss, h => by
    obtain ⟨hs, hss⟩ := List.forall_mem_append.mp h
    rw [Stmt.allReread, Stmt.reread_eq_self hs, Stmt.allReread_eq_self hss]

end

theorem Scope.reread_eq_self {scope : Scope} (h : scope.Formed)
    (hf : ∀ x, .double x ∈ scope.literals → x.magnitude ≠ Double.infinite) : Stmt.allReread scope = scope :=
  Stmt.allReread_eq_self fun v hv => Literal.reread_eq_self (h.literals v hv) fun x hx => hf x (hx ▸ hv)

/-! ## Texts -/

/-- A program that was read is well formed. -/
theorem parse_formed {text : String} {b : Scope} (h : parse text = .ok b) : b.Formed := by
  obtain ⟨w, r, hg⟩ := (Lexer.ofText text).rewind.exists_gives
  have hd := Lookahead.parse_derives (s := Lookahead.ofSource (Lexer.ofText text)) hg
  rw [show (Lookahead.ofSource (Lexer.ofText text)).parse.1 = .ok b from h] at hd
  exact Program.formed hd.1 (Lexer.lexical_of_gives hg)

/-- The source of a program is read again, with `inf` for every infinite double. -/
theorem Scope.parse_written {scope : Scope} (h : scope.Formed) :
    parse (String.ofList scope.source) = .ok (Stmt.allReread scope) := by
  obtain ⟨ts, hlex, hts⟩ := Scope.lexes h
  exact parse_of_lexes hlex hts

/-- What is written of a program that was read is read, and written the same; it is read as the
    same program if none of its doubles is infinite. -/
theorem parse_source {text : String} {b : Scope} (h : parse text = .ok b) : ∃ b', parse (String.ofList b.source) = .ok b' ∧
    b'.source = b.source ∧ ((∀ x, .double x ∈ b.literals → x.magnitude ≠ Double.infinite) → b' = b) :=
  ⟨_, Scope.parse_written (parse_formed h), Scope.source_reread (parse_formed h), Scope.reread_eq_self (parse_formed h)⟩

theorem parse_source_assignment : parse "x=y" = .ok [.assign "x" (.var "y")] ∧
    ∃ b', parse (String.ofList (Scope.source [.assign "x" (.var "y")])) = .ok b' ∧ b' = [.assign "x" (.var "y")] := by
  have h : parse "x=y" = .ok [.assign "x" (.var "y")] := by
    have hx : IsName "x" := ⟨⟨'x', [], rfl, rfl, nofun⟩, by decide⟩
    have hy : IsName "y" := ⟨⟨'y', [], rfl, rfl, nofun⟩, by decide⟩
    have hl : Lexes "x=y".toList [⟨.name, "x"⟩, ⟨.assign, "="⟩, ⟨.name, "y"⟩] :=
      hx.lexes (fun d hd => by cases hd; rfl) (.alone (c := '=') rfl rfl (fun d hd => by cases hd; decide)
        (hy.lexes nofun .nil))
    exact parse_of_lexes hl (.cons (.assign hx.named rfl (.of_atom (.var hy.named))) .nil .nil)
  obtain ⟨b', hb, -, heq⟩ := parse_source h
  exact ⟨h, b', hb, heq nofun⟩

/-- The programs that texts give, infinite doubles apart. -/
theorem parse_image {b : Scope} (hf : ∀ x, .double x ∈ b.literals → x.isFinite = true) :
    (∃ text, parse text = .ok b) ↔ b.WellFormed := by
  constructor
  · intro hb
    rcases hb with ⟨text, h⟩
    exact ⟨(parse_formed h).shaped, fun v hv => ((parse_formed h).literals v hv).wellFormed⟩
  · intro h
    have hmagnitude : ∀ x, .double x ∈ b.literals → x.magnitude < Double.infinite := fun x hx => of_decide_eq_true (hf x hx)
    have hb : b.Formed := ⟨h.shaped, fun v hv => ⟨h.literals v hv, fun x hx =>
      decide_eq_false (Nat.not_lt_of_lt (hmagnitude x (hx ▸ hv)))⟩⟩
    refine ⟨String.ofList b.source, ?_⟩
    rw [Scope.parse_written hb, Scope.reread_eq_self hb fun x hx => Nat.ne_of_lt (hmagnitude x hx)]

theorem parse_image_half : ∃ text, parse text = .ok [.expression (.literal (.double (.ofRatio false 1 2)))] := by
  refine (parse_image ?_).mpr ⟨⟨trivial, trivial⟩, ?_⟩
  · intro x hx
    cases List.mem_singleton.mp hx
    decide +kernel
  · intro v hv
    cases List.mem_singleton.mp hv
    rfl

end ScriptLang
