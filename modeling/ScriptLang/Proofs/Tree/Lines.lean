/-
  ScriptLang.Proofs.Tree.Lines — statements written on lines, and what they derive.

  Every line of a scope ends in a line break, which ends the statement on it. The text between
  braces starts with a line break of its own, and a scope skips it.
  - `Stmt.writes`: a statement at any depth, with anything apart after it.
  - `Scope.lexes`: the source of a program lexes to tokens that derive what is read again.
-/

import ScriptLang.Proofs.Tree.Written

namespace ScriptLang

open Grammar Lexeme
open Token (Kind)

variable {rest : List Char} {us : List Token}

/-! ## Parameters -/

theorem parameters_writes : ∀ {ps : List String}, ps ≠ [] → (∀ p ∈ ps, IsName p) → ∃ ts,
    (∀ {rest us}, Lexes rest us → Lexes (joinWith ", ".toList (ps.map String.toList) ++ ')' :: rest) (ts ++ us)) ∧
      ∀ x, Parameters (ts ++ x) ps x
  | [], hne, _ => absurd rfl hne
  | [p], _, hp => by
    have hp := hp p (List.mem_singleton.mpr rfl)
    refine ⟨[⟨.name, p⟩, ⟨.closeParen, ")"⟩], fun {rest us} hl => ?_, fun x => .one hp.named rfl⟩
    rw [List.map_singleton, joinWith_singleton]
    exact hp.lexes (fun d hd => by cases hd; rfl) (.mark (c := ')') rfl hl)
  | p :: q :: ps, _, hp => by
    obtain ⟨hp, hps⟩ := List.forall_mem_cons.mp hp
    obtain ⟨ts, hlex, hparams⟩ := parameters_writes (List.cons_ne_nil q ps) hps
    refine ⟨⟨.name, p⟩ :: ⟨.comma, ","⟩ :: ts, fun {rest us} hl => ?_, fun x => .more hp.named rfl (hparams x)⟩
    have := hp.lexes (fun d hd => by cases hd; rfl) (.mark (c := ',') rfl (.blank (c := ' ') rfl (hlex hl)))
    simpa [joinWith_cons] using this

/-! ## Lines -/

/-- Every line with its line break. -/
def ended (lines : List (List Char)) : List Char := lines.flatMap (· ++ ['\n'])

theorem joinWith_ended : ∀ {lines : List (List Char)}, lines ≠ [] → joinWith ['\n'] lines ++ ['\n'] = ended lines
  | [], hne => absurd rfl hne
  | [l], _ => by simp [joinWith_singleton, ended]
  | l :: m :: lines, _ => by
    have ih := joinWith_ended (List.cons_ne_nil m lines)
    rw [joinWith_cons, List.append_assoc, ih]
    simp [ended]

theorem braced_eq (depth : Nat) (lines : List (List Char)) :
    braced depth lines = '{' :: '\n' :: (ended lines ++ (indent depth ++ ['}'])) := by
  cases lines with
  | nil => simp [braced, ended]
  | cons l lines =>
    have h := joinWith_ended (List.cons_ne_nil l lines)
    simp only [braced, ← h]
    simp

theorem Lexes.indent (depth : Nat) (hl : Lexes rest us) : Lexes (indent depth ++ rest) us := by
  unfold ScriptLang.indent
  generalize 4 * depth = n
  induction n with
  | zero => exact hl
  | succ n ih => exact .blank (c := ' ') rfl ih

/-- A scope is written line by line. -/
def WritesLines (depth : Nat) (b : Scope) (ts : List Token) : Prop :=
  ∀ {rest us}, Lexes rest us → Lexes (ended (Stmt.linesAt depth b) ++ rest) (ts ++ us)

theorem block_writes {depth : Nat} {b c : Scope} {ts : List Token} (hlex : WritesLines (depth + 1) b ts)
    (hb : ∀ x, Statements (ts ++ x) c x) :
    ∃ ts, Writes (braced depth (Stmt.linesAt (depth + 1) b)) ts ∧ ∀ x, Block (ts ++ x) c x := by
  refine ⟨⟨.openBrace, "\x7b"⟩ :: ⟨.newline, "\n"⟩ :: (ts ++ [⟨.closeBrace, "\x7d"⟩]), fun {rest us} _ hl => ?_, fun x => ?_⟩
  · have := Lexes.mark (c := '{') rfl (.mark (c := '\n') rfl (hlex (.indent depth (.mark (c := '}') rfl hl))))
    simpa [braced_eq] using this
  · have := Block.braces (o := ⟨.openBrace, "\x7b"⟩) rfl
      (.skip (t := ⟨.newline, "\n"⟩) rfl (hb (⟨.closeBrace, "\x7d"⟩ :: x))) rfl
    simpa using this

/-! ## Statements -/

theorem blank_word : ∀ d ∈ (' ' :: rest).head?, continuesName d = false := fun _ hd => by cases hd; rfl

/-- What `let name = ` writes. -/
theorem Lexes.declared {name : String} (hn : IsName name) (hl : Lexes rest us) :
    Lexes ("let ".toList ++ name.toList ++ " = ".toList ++ rest)
      (⟨.letWord, "let"⟩ :: ⟨.name, name⟩ :: ⟨.assign, "="⟩ :: us) := by
  have hq : Lexes ('=' :: ' ' :: rest) (⟨.assign, "="⟩ :: us) :=
    .alone (c := '=') rfl rfl (fun d hd => by cases hd; decide) (.blank (c := ' ') rfl hl)
  have := Lexes.keyword (c := 'l') (w := ['e', 't']) (k := .letWord) rfl rfl rfl blank_word
    (.blank (c := ' ') rfl (hn.lexes blank_word (.blank (c := ' ') rfl hq)))
  simpa using this

mutual

theorem Stmt.writes : ∀ {s : Stmt} (depth : Nat), s.Shaped → (∀ v ∈ s.literals, v.Readable) →
    ∃ ts, Writes (s.sourceAt depth) ts ∧ ∀ x, Statement (ts ++ x) s.reread x
  | .declare n e, depth, ⟨hn, he⟩, hv => by
    obtain ⟨ts, hlex, hatom⟩ := Expr.writes he hv
    refine ⟨⟨.letWord, "let"⟩ :: ⟨.name, n⟩ :: ⟨.assign, "="⟩ :: ts, fun {rest us} hr hl => ?_, fun x => ?_⟩
    · have := Lexes.declared hn (hlex hr hl)
      show Lexes ("let ".toList ++ n.toList ++ " = ".toList ++ e.source ++ rest) _
      simpa using this
    · exact .declare (l := ⟨.letWord, "let"⟩) (q := ⟨.assign, "="⟩) rfl hn.named rfl (.of_atom (hatom x))
  | .declareArray n e, depth, ⟨hn, he⟩, hv => by
    obtain ⟨ts, hlex, hatom⟩ := Expr.writes he hv
    refine ⟨⟨.letWord, "let"⟩ :: ⟨.name, n⟩ :: ⟨.assign, "="⟩ :: ⟨.openBracket, "["⟩ :: (ts ++ [⟨.closeBracket, "]"⟩]),
      fun {rest us} _ hl => ?_, fun x => ?_⟩
    · have := Lexes.declared hn (.mark (c := '[') rfl (hlex (.of_mark (by decide)) (.mark (c := ']') rfl hl)))
      show Lexes ("let ".toList ++ n.toList ++ " = [".toList ++ e.source ++ [']'] ++ rest) _
      simpa using this
    · have := Statement.declareArray (l := ⟨.letWord, "let"⟩) (q := ⟨.assign, "="⟩) (o := ⟨.openBracket, "["⟩) rfl
        hn.named rfl rfl (.of_atom (hatom (⟨.closeBracket, "]"⟩ :: x))) rfl
      simpa [Stmt.reread] using this
  | .assign n e, depth, ⟨hn, he⟩, hv => by
    obtain ⟨ts, hlex, hatom⟩ := Expr.writes he hv
    refine ⟨⟨.name, n⟩ :: ⟨.assign, "="⟩ :: ts, fun {rest us} hr hl => ?_,
      fun x => .assign hn.named rfl (.of_atom (hatom x))⟩
    have hq := Lexes.alone (c := '=') rfl rfl (fun d hd => by cases hd; decide) (.blank (c := ' ') rfl (hlex hr hl))
    have := hn.lexes blank_word (.blank (c := ' ') rfl hq)
    show Lexes (n.toList ++ " = ".toList ++ e.source ++ rest) _
    simpa using this
  | .assignElement a i e, depth, ⟨ha, hi, he⟩, hv => by
    obtain ⟨hvi, hve⟩ := List.forall_mem_append.mp hv
    obtain ⟨ti, hlexi, hatomi⟩ := Expr.writes hi hvi
    obtain ⟨te, hlexe, hatome⟩ := Expr.writes he hve
    refine ⟨⟨.name, a⟩ :: ⟨.openBracket, "["⟩ :: (ti ++ ⟨.closeBracket, "]"⟩ :: ⟨.assign, "="⟩ :: te),
      fun {rest us} hr hl => ?_, fun x => ?_⟩
    · have hq := Lexes.alone (c := '=') rfl rfl (fun d hd => by cases hd; decide) (.blank (c := ' ') rfl (hlexe hr hl))
      have := ha.lexes (fun d hd => by cases hd; rfl) (.mark (c := '[') rfl (hlexi (.of_mark (by decide))
        (.mark (c := ']') rfl (.blank (c := ' ') rfl hq))))
      show Lexes (a.toList ++ '[' :: i.source ++ "] = ".toList ++ e.source ++ rest) _
      simpa using this
    · have := Statement.assignElement (t := ⟨.name, a⟩) (o := ⟨.openBracket, "["⟩) (c := ⟨.closeBracket, "]"⟩)
        (q := ⟨.assign, "="⟩) ha.named rfl (.of_atom (hatomi _)) rfl rfl (.of_atom (hatome x))
      simpa [Stmt.reread] using this
  | .ifThen e b, depth, ⟨he, hb⟩, hv => by
    obtain ⟨hve, hvb⟩ := List.forall_mem_append.mp hv
    obtain ⟨te, hlexe, hatom⟩ := Expr.writes he hve
    obtain ⟨tl, hlexl, hlines⟩ := Stmt.allWrite (depth + 1) hb hvb
    obtain ⟨tb, hlexb, hblock⟩ := block_writes hlexl hlines
    refine ⟨⟨.ifWord, "if"⟩ :: (te ++ tb), fun {rest us} hr hl => ?_, fun x => ?_⟩
    · have := Lexes.keyword (c := 'i') (w := ['f']) (k := .ifWord) rfl rfl rfl blank_word
        (.blank (c := ' ') rfl (hlexe (.of_mark (by decide)) (.blank (c := ' ') rfl (hlexb hr hl))))
      show Lexes ("if ".toList ++ e.source ++ ' ' :: braced depth (Stmt.linesAt (depth + 1) b) ++ rest) _
      simpa using this
    · have := Statement.ifThen (i := ⟨.ifWord, "if"⟩) rfl (.of_atom (hatom (tb ++ x))) (hblock x)
      simpa [Stmt.reread] using this
  | .ifElse e b b', depth, ⟨he, hb, hb'⟩, hv => by
    obtain ⟨hve, hvb⟩ := List.forall_mem_append.mp hv
    obtain ⟨hvb, hvb'⟩ := List.forall_mem_append.mp hvb
    obtain ⟨te, hlexe, hatom⟩ := Expr.writes he hve
    obtain ⟨tl, hlexl, hlines⟩ := Stmt.allWrite (depth + 1) hb hvb
    obtain ⟨tl', hlexl', hlines'⟩ := Stmt.allWrite (depth + 1) hb' hvb'
    obtain ⟨tb, hlexb, hblock⟩ := block_writes hlexl hlines
    obtain ⟨tb', hlexb', hblock'⟩ := block_writes hlexl' hlines'
    refine ⟨⟨.ifWord, "if"⟩ :: (te ++ (tb ++ ⟨.elseWord, "else"⟩ :: tb')), fun {rest us} hr hl => ?_, fun x => ?_⟩
    · have helse := Lexes.keyword (c := 'e') (w := ['l', 's', 'e']) (k := .elseWord) rfl rfl rfl blank_word
        (.blank (c := ' ') rfl (hlexb' hr hl))
      have := Lexes.keyword (c := 'i') (w := ['f']) (k := .ifWord) rfl rfl rfl blank_word
        (.blank (c := ' ') rfl (hlexe (.of_mark (by decide)) (.blank (c := ' ') rfl
          (hlexb (.of_mark (by decide)) (.blank (c := ' ') rfl helse)))))
      show Lexes ("if ".toList ++ e.source ++ ' ' :: braced depth (Stmt.linesAt (depth + 1) b) ++
        " else ".toList ++ braced depth (Stmt.linesAt (depth + 1) b') ++ rest) _
      simpa using this
    · have := Statement.ifElse (i := ⟨.ifWord, "if"⟩) (g := []) rfl (.of_atom (hatom _))
        (hblock (⟨.elseWord, "else"⟩ :: (tb' ++ x))) nofun rfl (hblock' x)
      simpa [Stmt.reread] using this
  | .whileLoop e b, depth, ⟨he, hb⟩, hv => by
    obtain ⟨hve, hvb⟩ := List.forall_mem_append.mp hv
    obtain ⟨te, hlexe, hatom⟩ := Expr.writes he hve
    obtain ⟨tl, hlexl, hlines⟩ := Stmt.allWrite (depth + 1) hb hvb
    obtain ⟨tb, hlexb, hblock⟩ := block_writes hlexl hlines
    refine ⟨⟨.whileWord, "while"⟩ :: (te ++ tb), fun {rest us} hr hl => ?_, fun x => ?_⟩
    · have := Lexes.keyword (c := 'w') (w := ['h', 'i', 'l', 'e']) (k := .whileWord) rfl rfl rfl blank_word
        (.blank (c := ' ') rfl (hlexe (.of_mark (by decide)) (.blank (c := ' ') rfl (hlexb hr hl))))
      show Lexes ("while ".toList ++ e.source ++ ' ' :: braced depth (Stmt.linesAt (depth + 1) b) ++ rest) _
      simpa using this
    · have := Statement.whileLoop (w := ⟨.whileWord, "while"⟩) rfl (.of_atom (hatom (tb ++ x))) (hblock x)
      simpa [Stmt.reread] using this
  | .define f ps b, depth, ⟨hf, hne, hps, hb⟩, hv => by
    obtain ⟨tp, hlexp, hparams⟩ := parameters_writes hne hps
    obtain ⟨tl, hlexl, hlines⟩ := Stmt.allWrite (depth + 1) hb hv
    obtain ⟨tb, hlexb, hblock⟩ := block_writes hlexl hlines
    refine ⟨⟨.defWord, "def"⟩ :: ⟨.name, f⟩ :: ⟨.openParen, "("⟩ :: (tp ++ tb), fun {rest us} hr hl => ?_, fun x => ?_⟩
    · have := Lexes.keyword (c := 'd') (w := ['e', 'f']) (k := .defWord) rfl rfl rfl blank_word
        (.blank (c := ' ') rfl (hf.lexes (fun d hd => by cases hd; rfl)
          (.mark (c := '(') rfl (hlexp (.blank (c := ' ') rfl (hlexb hr hl))))))
      show Lexes ("def ".toList ++ f.toList ++ '(' :: joinWith ", ".toList (ps.map String.toList) ++
        ") ".toList ++ braced depth (Stmt.linesAt (depth + 1) b) ++ rest) _
      simpa using this
    · have := Statement.define (d := ⟨.defWord, "def"⟩) (o := ⟨.openParen, "("⟩) rfl hf.named rfl (hparams (tb ++ x))
        (hblock x)
      simpa [Stmt.reread] using this
  | .returns none, depth, _, _ =>
    ⟨[⟨.returnWord, "return"⟩], fun hr hl => .keyword (c := 'r') rfl rfl rfl hr.word hl, fun x => .returns rfl⟩
  | .returns (some e), depth, he, hv => by
    obtain ⟨ts, hlex, hatom⟩ := Expr.writes he hv
    refine ⟨⟨.returnWord, "return"⟩ :: ts, fun {rest us} hr hl => ?_, fun x => .returnsValue rfl (.of_atom (hatom x))⟩
    have := Lexes.keyword (c := 'r') (w := ['e', 't', 'u', 'r', 'n']) (k := .returnWord) rfl rfl rfl blank_word
      (.blank (c := ' ') rfl (hlex hr hl))
    show Lexes ("return ".toList ++ e.source ++ rest) _
    simpa using this
  | .block b, depth, hb, hv => by
    obtain ⟨tl, hlexl, hlines⟩ := Stmt.allWrite (depth + 1) hb hv
    obtain ⟨tb, hlexb, hblock⟩ := block_writes hlexl hlines
    exact ⟨tb, hlexb, fun x => .block (hblock x)⟩
  | .expression e, depth, he, hv => by
    obtain ⟨ts, hlex, hatom⟩ := Expr.writes he hv
    exact ⟨ts, hlex, fun x => .expression (.of_atom (hatom x))⟩

theorem Stmt.allWrite : ∀ {ss : Scope} (depth : Nat), Stmt.AllShaped ss → (∀ v ∈ Stmt.allLiterals ss, v.Readable) →
    ∃ ts, WritesLines depth ss ts ∧ ∀ x, Statements (ts ++ x) (Stmt.allReread ss) x
  | [], _, _, _ => ⟨[], fun hl => hl, fun _ => .nil⟩
  | s :: ss, depth, ⟨hs, hss⟩, hv => by
    obtain ⟨hvs, hvss⟩ := List.forall_mem_append.mp hv
    obtain ⟨ts, hlex, hstmt⟩ := Stmt.writes depth hs hvs
    obtain ⟨ts', hlex', hlines⟩ := Stmt.allWrite depth hss hvss
    refine ⟨ts ++ ⟨.newline, "\n"⟩ :: ts', fun {rest us} hl => ?_, fun x => ?_⟩
    · have := Lexes.indent depth (hlex (.of_mark (by decide)) (.mark (c := '\n') rfl (hlex' hl)))
      simpa [ended, Stmt.linesAt] using this
    · have := Statements.cons (hstmt (⟨.newline, "\n"⟩ :: (ts' ++ x))) (.separator rfl) (.skip rfl (hlines x))
      simpa [Stmt.allReread] using this

end

/-! ## Programs -/

theorem Scope.lexes {scope : Scope} (h : scope.Formed) :
    ∃ ts, Lexes scope.source ts ∧ Program ts (Stmt.allReread scope) := by
  obtain ⟨ts, hlex, hlines⟩ := Stmt.allWrite 0 h.shaped h.literals
  cases scope with
  | nil => exact ⟨[⟨.newline, "\n"⟩], .mark (c := '\n') rfl .nil, .skip rfl .nil⟩
  | cons s ss =>
    have hs : Scope.source (s :: ss) = ended (Stmt.linesAt 0 (s :: ss)) ++ [] := by
      rw [List.append_nil]
      exact joinWith_ended nofun
    refine ⟨ts ++ [], ?_, hlines []⟩
    rw [hs]
    exact hlex .nil

end ScriptLang
