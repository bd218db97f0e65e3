/-
  ScriptLang.Proofs.Grammar.Progress — every call that reading a program makes is sound.

  A reader makes calls of a smaller measure than its own, and makes each where it says that it has
  been led. So its calls fit, by induction on the depth, and none fails its check.
  - `Level.climb`, …, `Level.conditional`: each reader, answered by checked readers at one depth
    and by the grammar's readers at another, if both are deep enough for its calls.
  - `checked_agrees`: checked readers do what the readers of the grammar do.
  - `Lookahead.parse_checked`: and so does a checked program, whatever fault an unsound call
    would raise; no reading of a program fails for want of depth.
-/

import ScriptLang.Proofs.Grammar.Acceptance
import ScriptLang.Proofs.Grammar.Checked

namespace ScriptLang

namespace Grammar

open Lookahead
open Token (Kind)

variable {σ : Type} [TokenStream σ] {last : Except Fault Token} {around : List (Entered σ)} {k m : Nat}
  {r : Readers σ} {x : List Token}

/-- Inside of the calls `around`, the readers `r` answer calls of measure `k` or less as the
    readers at depth `m` do, which is deep enough for them. -/
structure Level (last : Except Fault Token) (around : List (Entered σ)) (k m : Nat) (r : Readers σ) : Prop where
  deep : k ≤ m
  answers {α : Type} {c : Call α} {x : List Token} : Fits last around k c x → Agrees last (r c) (readers m c) x

theorem exists_append_of_le {n : Nat} (h : n ≤ x.length) : ∃ p u, x = p ++ u ∧ p.length = n :=
  ⟨x.take n, x.drop n, (List.take_append_drop n x).symm, List.length_take_of_le h⟩

namespace Level

variable (l : Level last around k m r)

include l

theorem enough {α : Type} {c : Call α} (hf : Fits last around k c x) : c.size x ≤ m := Nat.le_trans hf.deep l.deep

/-! ## Expressions -/

/-- An expression, which must be there, and what comes after it. -/
theorem required {α : Type} {w : Expectation} {g g' : Expr → Reading σ α} (hf : Fits last around k .expression x)
    (hg : ∀ e y, Expression x e y → Agrees last (g e) (g' e) y) :
    Agrees last (r.expression w >>= g) ((readers m).expression w >>= g') x := by
  have hread : Agrees last (r.expression w) ((readers m).expression w) x := (l.answers hf).before
  exact .call hread ((expressionReaders m).required (l.enough hf)) hg

theorem expression (h : Inside last around (k + 1) .expression x) :
    Agrees last (r.next .expression) ((readers m).next .expression) x := by
  simp only [Readers.next]
  have hatom : Fits last around k .atom x := h.lesser rfl rfl (by decide) trivial
  refine .call (l.answers hatom) ((expressionReaders m).atom (l.enough hatom)) ?_
  intro a y ha
  cases a with
  | none => exact .rfl
  | some left => exact .before (l.answers (h.shorter rfl rfl (Atom.length_lt ha) trivial))

theorem climb {left : Expr} {least : Nat} (h : Inside last around (k + 1) (.climb left least) x) :
    Agrees last (r.next (.climb left least)) ((readers m).next (.climb left least)) x := by
  simp only [Readers.next]
  refine .step (.nextKind ?_)
  intro t ht
  cases hp : t.kind.precedence? with
  | none => exact .rfl
  | some rank =>
    by_cases hlt : rank < least
    · simp only [if_pos hlt]
      exact .rfl
    simp only [if_neg hlt]
    obtain ⟨x, rfl⟩ := ht.cons fun he => by simp [he, Kind.precedence?] at hp
    have hranks : Ranks least t := ⟨rank, hp, Nat.le_of_not_lt hlt⟩
    refine .step (.take ?_)
    have hatom : Fits last around k .atom x := h.shorter rfl rfl (Nat.lt_succ_self _) ⟨t, rfl, hranks⟩
    refine .call (l.answers hatom) ((expressionReaders m).atom (l.enough hatom)) ?_
    intro a y ha
    refine .step (.require (fun a ha => ?_) fun _ _ _ => trivial)
    subst ha
    have ha : Atom x a y := ha
    have hl := ha.length_lt
    have habsorb : Fits last around k (.absorb a rank) y :=
      h.shorter rfl rfl (Nat.lt_succ_of_lt hl) ⟨t, x, a, rfl, hranks, ha⟩
    refine .call (l.answers habsorb)
      ((expressionReaders m).absorb (Kind.precedence_le hp) (l.enough habsorb)) ?_
    intro right z hright
    rcases hright with ⟨tight, hc, -, -, -⟩
    have hl' := hc.length_le
    unfold combine
    cases hop : BinaryOp.ofKind? t.kind with
    | none => exact .step (.throw trivial)
    | some op =>
      have hz : z.length < (t :: x).length := by simp only [List.length_cons]; omega
      exact .step (.pure (l.answers (h.shorter rfl rfl hz ⟨(op, a), tight, .cons hop ha hc⟩)))

/-- A round of `absorb`: the operator that was looked at is taken by `climb`. -/
theorem round {right : Expr} {t : Token} {rank least : Nat} (h : Inside last around (k + 1) (.absorb right rank) x)
    (ht : Next last x t) (hranks : Ranks least t) :
    Agrees last (r (.climb right least) >>= fun e => r (.absorb e rank))
      (readers m (.climb right least) >>= fun e => readers m (.absorb e rank)) x := by
  obtain ⟨next, hp, hle⟩ := hranks
  obtain ⟨x, rfl⟩ := ht.cons fun he => by simp [he, Kind.precedence?] at hp
  have hclimb : Fits last around k (.climb right least) (t :: x) :=
    h.lesser rfl rfl (Nat.lt_succ_self 1) ⟨rfl, t, x, rfl, next, hp, hle⟩
  refine .call (l.answers hclimb) ((expressionReaders m).climb (l.enough hclimb)) ?_
  intro e y hend
  obtain ⟨o, ops, hc⟩ := hend.takes ht hp hle
  exact l.answers (h.shorter rfl rfl hc.length_lt ⟨o, ops, hc⟩)

theorem absorb {right : Expr} {rank : Nat} (h : Inside last around (k + 1) (.absorb right rank) x) :
    Agrees last (r.next (.absorb right rank)) ((readers m).next (.absorb right rank)) x := by
  simp only [Readers.next]
  refine .step (.nextKind ?_)
  intro t ht
  cases hp : t.kind.precedence? with
  | none => exact .rfl
  | some next =>
    by_cases hlt : rank < next
    · simp only [if_pos hlt]
      exact l.round h ht ⟨next, hp, hlt⟩
    simp only [if_neg hlt]
    by_cases he : next = rank ∧ t.kind.groupsRight = true
    · simp only [if_pos he]
      exact l.round h ht ⟨next, hp, Nat.le_of_eq he.1.symm⟩
    · simp only [if_neg he]
      exact .rfl

theorem atom (h : Inside last around (k + 1) .atom x) : Agrees last (r.next .atom) ((readers m).next .atom) x := by
  simp only [Readers.next]
  refine .step (.nextKind ?_)
  intro t ht
  by_cases hk : t.kind = .openParen
  · simp only [if_pos hk]
    obtain ⟨x, rfl⟩ := ht.cons (by simp [hk])
    exact .step (.take (.before (l.answers (h.shorter rfl rfl (Nat.lt_succ_self _) trivial))))
  simp only [if_neg hk]
  cases hop : UnaryOp.ofKind? t.kind with
  | some op =>
    obtain ⟨x, rfl⟩ := ht.cons fun he => by simp [he, UnaryOp.ofKind?] at hop
    exact .step (.take (.before (l.answers (h.shorter rfl rfl (Nat.lt_succ_self _) trivial))))
  | none =>
    refine .step (.name? (fun f y hx _ => ?_) (fun _ _ _ _ _ => trivial) fun _ _ _ => .rfl)
    subst hx
    exact .before (l.answers (h.shorter rfl rfl (Nat.lt_succ_self _) trivial))

theorem reference {found : String} (h : Inside last around (k + 1) (.reference found) x) :
    Agrees last (r.next (.reference found)) ((readers m).next (.reference found)) x := by
  simp only [Readers.next]
  refine .step (.takeIf (by decide) (fun o y hx _ => ?_) fun _ _ _ => ?_)
  · subst hx
    exact .before (l.answers (h.shorter rfl rfl (Nat.lt_succ_self _) trivial))
  refine .step (.takeIf (by decide) (fun o y hx _ => ?_) fun _ _ _ => .rfl)
  subst hx
  exact .before (l.answers (h.shorter rfl rfl (Nat.lt_succ_self _) trivial))

theorem arguments (h : Inside last around (k + 1) .arguments x) :
    Agrees last (r.next .arguments) ((readers m).next .arguments) x := by
  simp only [Readers.next]
  have hexpr : Fits last around k .expression x := h.lesser rfl rfl (by decide) trivial
  refine .call (l.answers hexpr) ((expressionReaders m).expression (l.enough hexpr)) ?_
  intro e y he
  refine .step (.require (fun e he => ?_) fun _ _ _ => trivial)
  subst he
  have hl := Expression.length_lt he
  refine .step (.takeIf (by decide) (fun _ _ _ _ => .rfl) fun _ _ _ => ?_)
  refine .step (.expect (by decide) (fun c z hz hc => ?_) fun _ _ _ => trivial)
  subst hz
  exact .before (l.answers (h.shorter rfl rfl (Nat.lt_of_succ_lt hl) ⟨e, c, he, hc⟩))

/-! ## Scans -/

theorem pastLayout {place : Nat} (h : Inside last around (k + 1) (.pastLayout place) x) :
    Agrees last (r.next (.pastLayout place)) ((readers m).next (.pastLayout place)) x := by
  simp only [Readers.next]
  obtain ⟨p, u, rfl, rfl⟩ := exists_append_of_le h.place
  refine .step (.peekKind ?_)
  intro t ht
  by_cases hk : t.kind = .newline ∨ t.kind = .comment
  · simp only [if_pos hk]
    obtain ⟨u, rfl⟩ := ht.cons fun he => by simp [he] at hk
    exact l.answers (h.further (Nat.lt_succ_self _) (by simp [Call.place]) ⟨rfl, rfl⟩)
  · simp only [if_neg hk]
    exact .rfl

theorem assignsElement {place depth : Nat} (h : Inside last around (k + 1) (.assignsElement place depth) x) :
    Agrees last (r.next (.assignsElement place depth)) ((readers m).next (.assignsElement place depth)) x := by
  cases depth with
  | zero => exact .rfl
  | succ depth =>
    simp only [Readers.next]
    obtain ⟨p, u, rfl, rfl⟩ := exists_append_of_le h.place
    refine .step (.peekKind ?_)
    intro t ht
    by_cases hk : t.kind = .endOfText
    · simp only [hk]
      exact .rfl
    obtain ⟨u, rfl⟩ := ht.cons hk
    have next (depth : Nat) : Agrees last (r (.assignsElement (p.length + 1) depth))
        (readers m (.assignsElement (p.length + 1) depth)) (p ++ t :: u) :=
      l.answers (h.further (Nat.lt_succ_self _) (by simp [Call.place]) ⟨rfl, rfl⟩)
    cases ho : t.kind
    case endOfText => exact absurd ho hk
    all_goals exact next _

/-! ## Statements -/

theorem parameters (h : Inside last around (k + 1) .parameters x) :
    Agrees last (r.next .parameters) ((readers m).next .parameters) x := by
  simp only [Readers.next]
  refine .step (.name (fun t y hx ht => ?_) (fun _ _ _ _ _ => trivial) fun _ _ _ => trivial)
  subst hx
  refine .step (.takeIf (by decide) (fun _ _ _ _ => .rfl) fun _ _ _ => ?_)
  refine .step (.expect (by decide) (fun c z hz hc => ?_) fun _ _ _ => trivial)
  subst hz
  exact .before (l.answers (h.shorter rfl rfl (by simp only [List.length_cons]; omega) ⟨t, c, rfl, ht, hc⟩))

theorem scope (h : Inside last around (k + 1) .scope x) : Agrees last (r.next .scope) ((readers m).next .scope) x := by
  simp only [Readers.next]
  refine .step (.nextKind ?_)
  intro t ht
  by_cases hk : t.kind = .endOfText ∨ t.kind.closesScope = true
  · simp only [if_pos hk]
    exact .rfl
  simp only [if_neg hk]
  by_cases hs : t.kind.isSeparator = true
  · simp only [if_pos hs]
    obtain ⟨x, rfl⟩ := ht.cons fun he => hk (.inl he)
    exact .step (.take (l.answers (h.shorter rfl rfl (Nat.lt_succ_self _) (.inl ⟨t, rfl, hs⟩))))
  simp only [if_neg hs]
  have hstmt : Fits last around k .statement x := h.lesser rfl rfl (by decide) trivial
  refine .call (l.answers hstmt) ((statementReaders m).statement (l.enough hstmt)) ?_
  intro found y hfound
  cases found with
  | none => exact .rfl
  | some found =>
    have hfound : Statement x found y := hfound found rfl
    refine .step (.nextKind ?_)
    intro u hu
    by_cases he : u.kind.endsStatement = true
    · simp only [if_pos he]
      exact .before (l.answers (h.shorter rfl rfl hfound.length_lt (.inr ⟨found, hfound, .of_next hu he⟩)))
    · simp only [if_neg he]
      exact .rfl

theorem block (h : Inside last around (k + 1) .block x) : Agrees last (r.next .block) ((readers m).next .block) x := by
  simp only [Readers.next]
  refine .step (.expect (by decide) (fun o y hy _ => ?_) fun _ _ _ => trivial)
  subst hy
  exact .before (l.answers (h.shorter rfl rfl (Nat.lt_succ_self _) trivial))

theorem conditional (h : Inside last around (k + 1) .conditional x) :
    Agrees last (r.next .conditional) ((readers m).next .conditional) x := by
  simp only [Readers.next]
  refine l.required (h.lesser rfl rfl (by decide) trivial) fun e y he => ?_
  have hl := he.length_lt
  have hblock : Fits last around k .block y := h.shorter rfl rfl hl trivial
  refine .call (l.answers hblock) ((statementReaders m).block (l.enough hblock)) ?_
  intro b z hb
  have hl' := hb.length_lt
  have hpast : Fits last around k (.pastLayout 0) z := h.shorter rfl rfl (Nat.lt_trans hl' hl) trivial
  have hdeep : 8 * z.length + 1 ≤ m := l.enough hpast
  have hend : Reads last (readers (σ := σ) m (.pastLayout 0)) z
      (fun place y => ∃ gap u, z = gap ++ u ∧ place = gap.length ∧ y = z) fun _ _ => True :=
    .pastLayout (g := []) (.inl (by omega)) nofun fun gap u hz _ _ => ⟨gap, u, hz, rfl, rfl⟩
  refine .call (l.answers hpast) hend ?_
  rintro _ _ ⟨gap, u, rfl, rfl, rfl⟩
  refine .step (.peekKind ?_)
  intro t ht
  by_cases hk : t.kind = .elseWord
  · simp only [if_pos hk]
    obtain ⟨u, rfl⟩ := ht.cons (by simp [hk])
    refine .step (.skipPast (.before (l.answers (h.shorter rfl rfl ?_ trivial))))
    simp only [List.length_append, List.length_cons] at hl'
    omega
  · simp only [if_neg hk]
    exact .rfl

/-! ## The kinds of statements -/

section Kinds

variable {y : List Token} (h : Inside last around (k + 1) .statement x)

include h

theorem bare : Agrees last r.bare (readers m).bare x := .before (l.answers (h.lesser rfl rfl (by decide) trivial))

theorem declaration (hy : y.length < x.length) : Agrees last r.declaration? (readers m).declaration? y := by
  refine .step (.name (fun t z hz _ => ?_) (fun _ _ _ _ _ => trivial) fun _ _ _ => trivial)
  subst hz
  refine .step (.expect (by decide) (fun q z hz _ => ?_) fun _ _ _ => trivial)
  subst hz
  simp only [List.length_cons] at hy
  refine .step (.takeIf (by decide) (fun o z hz _ => ?_) fun _ _ _ => ?_)
  · subst hz
    simp only [List.length_cons] at hy
    exact l.required (h.shorter rfl rfl (by omega) trivial) fun _ _ _ => .rfl
  · exact .before (l.answers (h.shorter rfl rfl (by omega) trivial))

theorem assignment : Agrees last r.assignment? (readers m).assignment? x := by
  refine .step (.name (fun t z hz _ => ?_) (fun _ _ _ _ _ => trivial) fun _ _ _ => trivial)
  subst hz
  refine .step (.expect (by decide) (fun q z hz _ => ?_) fun _ _ _ => trivial)
  subst hz
  exact .before (l.answers (h.shorter rfl rfl (by simp only [List.length_cons]; omega) trivial))

theorem elementAssignment : Agrees last r.elementAssignment (readers m).elementAssignment x := by
  refine .step (.name (fun t z hz _ => ?_) (fun _ _ _ _ _ => trivial) fun _ _ _ => trivial)
  subst hz
  refine .step (.expect (by decide) (fun o z hz _ => ?_) fun _ _ _ => trivial)
  subst hz
  refine l.required (h.shorter rfl rfl (by simp only [List.length_cons]; omega) trivial) fun i v hi => ?_
  have hl := hi.length_lt
  refine .step (.expect (by decide) (fun c w hw _ => ?_) fun _ _ _ => trivial)
  subst hw
  refine .step (.expect (by decide) (fun q w hw _ => ?_) fun _ _ _ => trivial)
  subst hw
  simp only [List.length_cons] at hl
  exact l.required (h.shorter rfl rfl (by simp only [List.length_cons]; omega) trivial) fun _ _ _ => .rfl

theorem returned (hy : y.length < x.length) : Agrees last r.returned (readers m).returned y := by
  refine .step (.nextKind ?_)
  intro t _
  by_cases hs : t.kind.endsStatement = true
  · simp only [if_pos hs]
    exact .rfl
  · simp only [if_neg hs]
    exact l.required (h.shorter rfl rfl hy trivial) fun _ _ _ => .rfl

theorem plainStatement : Agrees last r.plainStatement? (readers m).plainStatement? x := by
  refine .step (.nextKind ?_)
  intro t ht
  by_cases hk : t.kind = .name
  · simp only [if_pos hk]
    obtain ⟨x, rfl⟩ := ht.cons (by simp [hk])
    refine .step (.peekKind (p := [t]) ?_)
    intro u hu
    by_cases hq : u.kind = .assign
    · simp only [if_pos hq]
      exact l.assignment h
    simp only [if_neg hq]
    by_cases ho : u.kind = .openBracket
    · simp only [if_pos ho]
      obtain ⟨x, rfl⟩ := hu.cons (by simp [ho])
      have hscan : Fits last around k (.assignsElement 2 1) (t :: u :: x) :=
        h.further (Nat.zero_lt_succ 1) (by simp [Call.place]) trivial
      have hdeep : 8 * x.length + 2 ≤ m := l.enough hscan
      have hend : Reads last (readers (σ := σ) m (.assignsElement 2 1)) (t :: u :: x)
          (fun _ y => y = t :: u :: x) fun _ _ => True := .assignsElement (p := [t, u]) (.inl (by omega)) fun _ _ => rfl
      refine .call (l.answers hscan) hend ?_
      intro assigns y hy
      subst hy
      cases assigns with
      | true => exact .before (l.elementAssignment h)
      | false => exact l.bare h
    · simp only [if_neg ho]
      exact l.bare h
  · simp only [if_neg hk]
    exact l.bare h

theorem statement : Agrees last (r.next .statement) ((readers m).next .statement) x := by
  simp only [Readers.next]
  refine .step (.nextKind ?_)
  intro t ht
  cases hk : t.kind
  case letWord =>
    obtain ⟨x, rfl⟩ := ht.cons (by simp [hk])
    exact .step (.take (l.declaration h (Nat.lt_succ_self _)))
  case ifWord =>
    obtain ⟨x, rfl⟩ := ht.cons (by simp [hk])
    exact .step (.take (.before (l.answers (h.shorter rfl rfl (Nat.lt_succ_self _) trivial))))
  case whileWord =>
    obtain ⟨x, rfl⟩ := ht.cons (by simp [hk])
    refine .step (.take (l.required (h.shorter rfl rfl (Nat.lt_succ_self _) trivial) fun e y he => ?_))
    exact .before (l.answers (h.shorter rfl rfl (Nat.lt_succ_of_lt he.length_lt) trivial))
  case defWord =>
    obtain ⟨x, rfl⟩ := ht.cons (by simp [hk])
    refine .step (.take (.step (.name (fun f y hx _ => ?_) (fun _ _ _ _ _ => trivial) fun _ _ _ => trivial)))
    subst hx
    refine .step (.expect (by decide) (fun o z hz _ => ?_) fun _ _ _ => trivial)
    subst hz
    have hz : z.length < (t :: f :: o :: z).length := by simp only [List.length_cons]; omega
    have hparams : Fits last around k .parameters z := h.shorter rfl rfl hz trivial
    have hdeep : 8 * z.length + 1 ≤ m := l.enough hparams
    refine .call (l.answers hparams) (parameters_reads (by omega)) ?_
    intro ps u hps
    have hl := hps.length_lt
    exact .before (l.answers (h.shorter rfl rfl (by simp only [List.length_cons]; omega) trivial))
  case returnWord =>
    obtain ⟨x, rfl⟩ := ht.cons (by simp [hk])
    exact .step (.take (.before (l.returned h (Nat.lt_succ_self _))))
  case openBrace => exact .before (l.answers (h.lesser rfl rfl (by decide) trivial))
  all_goals exact l.plainStatement h

end Kinds

/-! ## All readers -/

theorem next {α : Type} {c : Call α} (h : Inside last around (k + 1) c x) :
    Agrees last (r.next c) ((readers m).next c) x := by
  cases c with
  | expression => exact l.expression h
  | climb => exact l.climb h
  | absorb => exact l.absorb h
  | atom => exact l.atom h
  | reference => exact l.reference h
  | arguments => exact l.arguments h
  | pastLayout => exact l.pastLayout h
  | assignsElement => exact l.assignsElement h
  | parameters => exact l.parameters h
  | scope => exact l.scope h
  | block => exact l.block h
  | statement => exact l.statement h
  | conditional => exact l.conditional h

end Level

/-- At depths that are enough for the tokens ahead, a call that fits is answered by checked
    readers as by the readers of the grammar. -/
theorem checked_agrees {alarm : Fault} {n : Nat} {α : Type} {c : Call α} (hc : Fits last around (min n m) c x) :
    Agrees last (checked alarm last n around c) (readers m c) x := by
  have hpos := c.size_pos x
  have hdeep := hc.deep
  induction n generalizing m α around x with
  | zero => omega
  | succ n ih =>
    cases m with
    | zero => omega
    | succ m =>
      rw [readers_succ]
      show Agrees last (enter alarm last around c fun around => (checked alarm last n around).next c) _ x
      refine .enter hc fun around h => ?_
      rw [Nat.succ_min_succ] at h
      have l : Level last around (min n m) m (checked alarm last n around) :=
        ⟨Nat.min_le_right _ _, fun hc => ih hc (Call.size_pos ..) hc.deep⟩
      exact l.next h

end Grammar

open Grammar

variable {σ : Type} [TokenStream σ] {last : Except Fault Token}

/-- Whatever fault an unsound call would raise, and at every depth that is enough for the tokens
    of the source, checking the calls changes nothing. So no call is unsound. -/
theorem Lookahead.parse_checked {s : Lookahead σ} {w : List Token} {depth : Nat}
    (h : Gives TokenStream.pull (TokenStream.rewind s.source) w last) (hd : 8 * w.length + 4 ≤ depth) :
    (∀ alarm, checkedParse alarm last depth s = s.parse) ∧
      (s.parse.1 = .error .tooDeep → last = .error .tooDeep) := by
  have hm : 8 * w.length + 4 ≤ depthFor (TokenStream.bound s.source) := by
    have := TokenStream.length_le_bound h
    unfold depthFor
    omega
  have hs : Ahead last (⟨TokenStream.rewind s.source, []⟩ : Lookahead σ) w := .pending rfl h.kind_ne h
  constructor
  · intro alarm
    have hfits : Fits (σ := σ) last [] (min depth (depthFor (TokenStream.bound s.source))) .scope w :=
      ⟨Nat.zero_le _, Nat.le_min.mpr ⟨hd, hm⟩, nofun, nofun⟩
    have heq : checkedProgram alarm last depth s = program (depthFor (TokenStream.bound s.source)) s :=
      (checked_agrees hfits).before _ hs
    rw [checkedParse, heq]
    rfl
  · intro hf
    have hp := parse_derives h
    rw [hf] at hp
    exact hp.resolve_right (absurd rfl)

/-- With `a + b ^ c`, whose power sign is looked at before it is taken. -/
theorem Lookahead.parse_checked_sum :
    let s := Lookahead.ofSource (Replay.ofItems
      [.ok ⟨.name, "a"⟩, .ok ⟨.plus, "+"⟩, .ok ⟨.name, "b"⟩, .ok ⟨.caret, "^"⟩, .ok ⟨.name, "c"⟩])
    8 * 5 + 4 ≤ 44 ∧ (∀ alarm, checkedParse alarm (.ok Token.endOfText) 44 s = s.parse) ∧
      s.parse.1 ≠ .error .tooDeep := by
  intro s
  have hg : Gives TokenStream.pull (TokenStream.rewind s.source)
      [⟨.name, "a"⟩, ⟨.plus, "+"⟩, ⟨.name, "b"⟩, ⟨.caret, "^"⟩, ⟨.name, "c"⟩] (.ok Token.endOfText) :=
    .token rfl nofun (.token rfl nofun (.token rfl nofun (.token rfl nofun (.token rfl nofun (.final rfl rfl)))))
  obtain ⟨hsame, hdeep⟩ := Lookahead.parse_checked hg (Nat.le_refl 44)
  exact ⟨Nat.le_refl 44, hsame, fun hf => nomatch hdeep hf⟩

end ScriptLang
