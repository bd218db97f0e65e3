/-
  ScriptLang.Proofs.Grammar.Tracking — the readers keep in step with the automaton.

  `Alive last W K x`: what was taken from the front of `W` to leave `x` brings the automaton to
  a stack that behaves as `K` does. A reader of something takes a stack that has frames for
  it on top to the stack below; where it fails, the automaton refuses the next token, and the
  fault is about that token. A reader that has looked ahead knows more than the automaton
  does, so the stack it works with is another one, which `Same` says makes no difference.
  - `expressionTracks` / `statementTracks`: so do all readers, at every depth.
  - `wholeScope_tracks`: so does a reading of a program, which the automaton accepts to the end.
-/

import ScriptLang.Proofs.Grammar.Alike
import ScriptLang.Proofs.Grammar.Soundness

namespace ScriptLang

open Grammar

/-- The token that a fault is about, if it is about what stands where something else should. -/
def Fault.offender? : Fault → Option Token
  | .unexpected _ found | .noStatement found | .trailing found => some found
  | .malformed literal _ => some literal
  | .unsupportedOperator _ | .lexical _ | .encoding _ | .tooDeep => none

/-- What the readers ask for. That a name is proper is judged once it is taken, not asked for. -/
def Expectation.Asked : Expectation → Prop
  | .properName | .other _ => False
  | _ => True

/-- A fault that is as it says: something was asked for, or a literal has not the form. -/
def Fault.Fair : Fault → Prop
  | .unexpected wanted _ => wanted.Asked
  | .malformed literal form => literalOf literal = .error (.malformed literal form)
  | _ => True

namespace Grammar

open Lookahead
open Token (Kind)

variable {σ α : Type} [TokenStream σ] {last : Except Fault Token} {W x y : List Token} {K K' : List Frame}

def Alive (last : Except Fault Token) (W : List Token) (K : List Frame) (x : List Token) : Prop :=
  ∃ u c, W = u ++ x ∧ feeds [.scope] u = some c ∧ Same last c K x

/-- The automaton refuses the next token, whichever it is. -/
def Stuck (last : Except Fault Token) (W y : List Token) : Prop :=
  ∃ u c, W = u ++ y ∧ feeds [.scope] u = some c ∧ ∀ t, Next last y t → feed c t = none

/-- A fault about the next token, which the automaton refuses, unless there is a token that
    is found fault with after it is taken, or the depth was too small. -/
def Blames (last : Except Fault Token) (W : List Token) (f : Fault) (y : List Token) : Prop :=
  f = .tooDeep ∨ (∃ t ∈ W, ¬ Regular t) ∨ ∃ t, f.offender? = some t ∧ f.Fair ∧ Next last y t ∧ Stuck last W y

/-- What a reader that may find nothing ends in. -/
def Found (last : Except Fault Token) (W : List Token) (K : List Frame) : Option α → List Token → Prop
  | some _, y => Alive last W K y
  | none, y => Stuck last W y

theorem Stuck.blames {t : Token} {f : Fault} (h : Stuck last W y) (ht : Next last y t) (hf : f.offender? = some t)
    (hfair : f.Fair) : Blames last W f y := .inr (.inr ⟨t, hf, hfair, ht, h⟩)

namespace Alive

variable {f : Frame} {t : Token}

theorem same (h : Alive last W K x) (hs : Same last K K' x) : Alive last W K' x := by
  obtain ⟨u, c, hW, hu, hc⟩ := h
  exact ⟨u, c, hW, hu, hc.trans hs⟩

theorem of_feed (h : Alive last W K x) (hK : ∀ t, Next last x t → feed K t = feed K' t) : Alive last W K' x :=
  h.same (.of_feed hK)

theorem pass (h : Alive last W (f :: K) x) (hf : ∀ t, Next last x t → f.act t = .pass) : Alive last W K x :=
  h.of_feed fun t ht => feed_pass (hf t ht)

/-- Taking a token that makes the top frame give way to the frames `P`. -/
theorem push (h : Alive last W (f :: K) (t :: x)) (P : List Frame) (ht : t.kind ≠ .endOfText) (hf : f.act t = .push P) :
    Alive last W (P ++ K) x := by
  obtain ⟨u, c, hW, hu, hc⟩ := h
  obtain ⟨c', hc', hs⟩ := hc.tail ht (feed_push hf)
  refine ⟨u ++ [t], c', by rw [hW, List.append_assoc]; rfl, ?_, hs⟩
  rw [feeds_append, hu]
  exact feeds_singleton.trans hc'

theorem stuck (h : Alive last W K x) (hK : ∀ t, Next last x t → feed K t = none) : Stuck last W x := by
  obtain ⟨u, c, hW, hu, hc⟩ := h
  refine ⟨u, c, hW, hu, fun t ht => ?_⟩
  have hs := hc [] x t rfl nofun ht
  rw [List.nil_append, feeds_singleton, feeds_singleton, hK t ht, Option.isSome_none] at hs
  exact Option.isNone_iff_eq_none.mp (Option.isSome_eq_false_iff.mp hs)

theorem refused (h : Alive last W (f :: K) x) (ht : Next last x t) (hf : f.act t = .refuse) : Stuck last W x :=
  h.stuck fun _ hu => hu.unique ht ▸ feed_refuse hf

/-- At the start of an atom, which is no frame of its own yet. -/
theorem atom {P : List Frame} (h : Alive last W (f :: K) x) (ht : Next last x t) (hf : f.act t = .atom t P) :
    Alive last W (.atom :: (P ++ K)) x := h.of_feed fun _ hu => hu.unique ht ▸ feed_atom hf

theorem irregular {g : Fault} (h : Alive last W K (t :: x)) (ht : ¬ Regular t) : Blames last W g y := by
  obtain ⟨u, c, rfl, -⟩ := h
  exact .inr (.inl ⟨t, by simp, ht⟩)

/-! ## Single tokens -/

theorem expect {k : Kind} {w : Expectation} (h : Alive last W (.mark k :: K) x) (hk : k ≠ .endOfText) (hw : w.Asked) :
    Reads last (Lookahead.expect (σ := σ) k w) x (fun _ => Alive last W K) (Blames last W) := by
  refine .expect hk (fun t y hx ht => ?_) fun t ht hk => ?_
  · subst hx
    exact h.push [] (ht ▸ hk) (act_mark ht)
  · exact (h.refused ht (act_mark_ne hk)).blames ht rfl hw

theorem name {w : Expectation} (h : Alive last W (.name :: K) x) (hw : w.Asked) :
    Reads last (Grammar.name (σ := σ) w) x (fun _ => Alive last W K) (Blames last W) := by
  refine .name (fun t y hx ht => ?_) (fun t y hx hk hp => ?_) fun t ht hk => ?_
  · subst hx
    exact h.push [] (by simp [ht.kind]) (if_pos ht.kind)
  · subst hx
    exact h.irregular fun hr => by rw [hr.name hk] at hp; cases hp
  · exact (h.refused ht (if_neg hk)).blames ht rfl hw

end Alive

theorem Found.require {w : Expectation} {r : Option α} (h : Found last W K r y) (hw : w.Asked) :
    Reads last (Lookahead.require (σ := σ) w r) y (fun _ => Alive last W K) (Blames last W) := by
  cases r with
  | none => exact .fail fun t ht => Stuck.blames h ht rfl hw
  | some a => exact .pure h

/-! ## Expressions -/

/-- The readers of expressions at depth `n` keep in step. -/
structure ExpressionTracks (σ : Type) [TokenStream σ] (last : Except Fault Token) (W : List Token) (n : Nat) : Prop where
  expression {K : List Frame} {x : List Token} : Alive last W (.atom :: .tail :: K) x →
    Reads last (expression? (σ := σ) n) x (Found last W K) (Blames last W)
  climb {K : List Frame} {x : List Token} {left : Expr} {least : Nat} : Alive last W (.tail :: K) x →
    Reads last (climb (σ := σ) n left least) x (fun _ y => Alive last W (.tail :: K) y ∧ StopsBelow last least y)
      (Blames last W)
  absorb {K : List Frame} {x : List Token} {right : Expr} {rank : Nat} : Alive last W (.tail :: K) x →
    Reads last (absorb (σ := σ) n right rank) x (fun _ => Alive last W (.tail :: K)) (Blames last W)
  atom {K : List Frame} {x : List Token} : Alive last W (.atom :: K) x →
    Reads last (atom? (σ := σ) n) x (Found last W K) (Blames last W)
  reference {K : List Frame} {x : List Token} {name : String} : Alive last W (.suffix :: K) x →
    Reads last (reference (σ := σ) n name) x (fun _ => Alive last W K) (Blames last W)
  arguments {K : List Frame} {x : List Token} : Alive last W (.atom :: .tail :: .argsTail :: K) x →
    Reads last (arguments (σ := σ) n) x (fun _ => Alive last W K) (Blames last W)

namespace ExpressionTracks

variable {n : Nat} (ih : ExpressionTracks σ last W n)

include ih

theorem required {w : Expectation} (h : Alive last W (.atom :: .tail :: K) x) (hw : w.Asked) :
    Reads last (Grammar.expression (σ := σ) n w) x (fun _ => Alive last W K) (Blames last W) :=
  .seq (ih.expression h) fun _ _ hr => hr.require hw

theorem expression_succ (h : Alive last W (.atom :: .tail :: K) x) :
    Reads last (expression? (σ := σ) (n + 1)) x (Found last W K) (Blames last W) := by
  rw [expression?]
  refine .seq (ih.atom h) ?_
  intro r y ha
  rcases r with _ | a
  · exact .pure ha
  · refine .seq (ih.climb ha) fun e z hz => .pure ?_
    -- At the lowest rank, what stops a climb is no operator at all.
    refine hz.1.pass fun t ht => if_neg ?_
    intro ho
    obtain ⟨p, hp⟩ := Option.isSome_iff_exists.mp ho
    exact absurd (hz.2 t ht p hp) (Nat.not_lt_zero p)

theorem climb_succ {left : Expr} {least : Nat} (h : Alive last W (.tail :: K) x) :
    Reads last (Grammar.climb (σ := σ) (n + 1) left least) x
      (fun _ y => Alive last W (.tail :: K) y ∧ StopsBelow last least y) (Blames last W) := by
  rw [Grammar.climb]
  refine .bind (.nextKind ?_)
  intro t ht
  cases hp : t.kind.precedence? with
  | none => exact .pure ⟨h, .of_next ht fun p hp' => by cases hp.symm.trans hp'⟩
  | some rank =>
    by_cases hlt : rank < least
    · simp only [if_pos hlt]
      exact .pure ⟨h, .of_next ht fun p hp' => by cases hp.symm.trans hp'; exact hlt⟩
    simp only [if_neg hlt]
    have hk : t.kind ≠ .endOfText := fun he => by simp [he, Kind.precedence?] at hp
    have ho : t.kind.isBinaryOperator = true := by rw [Kind.isBinaryOperator, hp]; rfl
    obtain ⟨x, rfl⟩ := ht.cons hk
    have operand := h.push [.atom, .tail] hk (if_pos ho)
    refine .bind (.take (.seq (ih.atom operand) fun r y hr => .seq (hr.require trivial) ?_))
    intro a z hz
    refine .seq (ih.absorb hz) ?_
    intro r u hu
    unfold combine
    cases hop : BinaryOp.ofKind? t.kind with
    | some op => exact .bind (.pure (ih.climb hu))
    | none => exact .bind (.throw (h.irregular fun hr => hr.operator ho hop))

theorem absorb_succ {right : Expr} {rank : Nat} (h : Alive last W (.tail :: K) x) :
    Reads last (Grammar.absorb (σ := σ) (n + 1) right rank) x (fun _ => Alive last W (.tail :: K)) (Blames last W) := by
  rw [Grammar.absorb]
  refine .bind (.nextKind ?_)
  intro t ht
  cases t.kind.precedence? with
  | none => exact .pure h
  | some next =>
    by_cases hlt : rank < next
    · simp only [if_pos hlt]
      exact .seq (ih.climb h) fun r y hy => ih.absorb hy.1
    simp only [if_neg hlt]
    by_cases he : next = rank ∧ t.kind.groupsRight = true
    · simp only [if_pos he]
      exact .seq (ih.climb h) fun r y hy => ih.absorb hy.1
    · simp only [if_neg he]
      exact .pure h

theorem atom_succ (h : Alive last W (.atom :: K) x) :
    Reads last (atom? (σ := σ) (n + 1)) x (Found last W K) (Blames last W) := by
  rw [atom?]
  refine .bind (.nextKind ?_)
  intro t ht
  by_cases hp : t.kind = .openParen
  · rw [if_pos hp]
    obtain ⟨x, rfl⟩ := ht.cons (by simp [hp])
    have inside := h.push [.atom, .tail, .mark .closeParen] (by simp [hp]) (if_pos hp)
    refine .bind (.take (.seq (ih.expression inside) fun r y hr => .seq (hr.require trivial) ?_))
    intro e z hz
    exact .seq (hz.expect (by decide) trivial) fun c u hu => .pure hu
  rw [if_neg hp]
  cases hop : UnaryOp.ofKind? t.kind with
  | some op =>
    have hk : t.kind ≠ .endOfText := fun he => by simp [he, UnaryOp.ofKind?] at hop
    obtain ⟨x, rfl⟩ := ht.cons hk
    have operand := h.push [.atom] hk (by simp [Frame.act, Move.atom, hp, hop])
    exact .bind (.take (.seq (ih.atom operand) fun r y hr => .seq (hr.require trivial) fun a z hz => .pure hz))
  | none =>
    refine .bind (.name? (fun u y hx hu => ?_) (fun u y hx hk hu => ?_) fun u hu hn => ?_)
    · subst hx
      obtain rfl := ht.head
      have hs := h.push [.suffix] (by simp [hu.kind]) (by simp [Frame.act, Move.atom, hu.kind, UnaryOp.ofKind?])
      exact .seq (ih.reference hs) fun e z hz => .pure hz
    · subst hx
      exact h.irregular fun hr => by rw [hr.name hk] at hu; cases hu
    -- What is left is a literal, or no atom.
    obtain rfl := hu.unique ht
    obtain ⟨hlit, hrefuse⟩ := act_atom hp hop hn
    have hstuck (hno : ∀ v, literalOf u ≠ .ok (some v)) : Stuck last W x := h.refused hu (hrefuse hno)
    refine .bind (.literal? (fun v y l hx hv => .pure ?_) (fun v f hv hf => ?_) fun v hv hno => .pure ?_)
    · subst hx
      obtain rfl := ht.head
      exact h.push [] (hv.kind_ne (by decide)) (hlit _ (constant_iff.mp hv))
    · obtain rfl := hv.unique hu
      obtain ⟨form, rfl⟩ := literalOf_error hf
      exact (hstuck fun l hl => by rw [hl] at hf; cases hf).blames hu rfl hf
    · obtain rfl := hv.unique hu
      exact hstuck fun l hl => by rw [hl] at hno; cases hno

theorem reference_succ {name : String} (h : Alive last W (.suffix :: K) x) :
    Reads last (Grammar.reference (σ := σ) (n + 1) name) x (fun _ => Alive last W K) (Blames last W) := by
  rw [Grammar.reference]
  refine .bind (.takeIf (by decide) (fun o y hx ho => ?_) fun u hu hp => ?_)
  · subst hx
    have hargs := h.push [.atom, .tail, .argsTail] (by simp [ho]) (if_pos ho)
    exact .seq (ih.arguments hargs) fun es z hz => .pure hz
  refine .bind (.takeIf (by decide) (fun o y hx ho => ?_) fun v hv hb => ?_)
  · subst hx
    have hindex := h.push [.atom, .tail, .mark .closeBracket] (by simp [ho]) (by simp [Frame.act, ho])
    refine .seq (ih.expression hindex) fun r y hr => .seq (hr.require trivial) ?_
    intro e z hz
    exact .seq (hz.expect (by decide) trivial) fun c u hu => .pure hu
  · obtain rfl := hv.unique hu
    exact .pure (h.pass fun w hw => by simp [Frame.act, hw.unique hu, hp, hb])

theorem arguments_succ (h : Alive last W (.atom :: .tail :: .argsTail :: K) x) :
    Reads last (Grammar.arguments (σ := σ) (n + 1)) x (fun _ => Alive last W K) (Blames last W) := by
  rw [Grammar.arguments]
  refine .seq (ih.expression h) fun r y hr => .seq (hr.require trivial) ?_
  intro e z hz
  refine .bind (.takeIf (by decide) (fun c u hx hc => ?_) fun t ht hp => ?_)
  · subst hx
    exact .pure (hz.push [] (by simp [hc]) (if_pos hc))
  refine .bind (.expect (by decide) (fun c u hx hc => ?_) fun v hv hc => ?_)
  · subst hx
    have more := hz.push [.atom, .tail, .argsTail] (by simp [hc]) (by simp [Frame.act, hc])
    exact .seq (ih.arguments more) fun es v hv => .pure hv
  · obtain rfl := hv.unique ht
    exact (hz.refused ht (by simp [Frame.act, hp, hc])).blames ht rfl trivial

end ExpressionTracks

theorem expressionTracks (n : Nat) : ExpressionTracks σ last W n := by
  induction n with
  | zero => constructor <;> intros <;> exact .throw (.inl rfl)
  | succ n ih =>
    exact ⟨ih.expression_succ, ih.climb_succ, ih.absorb_succ, ih.atom_succ, ih.reference_succ, ih.arguments_succ⟩

/-! ## Statements without blocks -/

section Plain

variable {n : Nat}

theorem Found.map {β : Type} {g : α → β} {r : Option α} (h : Found last W K r y) : Found last W K (r.map g) y := by
  cases r <;> exact h

theorem bare_tracks (h : Alive last W (.atom :: .tail :: K) x) :
    Reads last ((return (← expression? n).map .expression) : Reading σ (Option Stmt)) x (Found last W K) (Blames last W) :=
  .seq ((expressionTracks n).expression h) fun _ _ hr => .pure hr.map

theorem declaration_tracks (h : Alive last W (.name :: .mark .assign :: .initial :: K) x) :
    Reads last (declaration? (σ := σ) n) x (Found last W K) (Blames last W) := by
  refine .seq (h.name trivial) fun t y hy => .seq (hy.expect (by decide) trivial) ?_
  intro q z hz
  refine .bind (.takeIf (by decide) (fun o u hx ho => ?_) fun u hu ho => ?_)
  · subst hx
    have hlength := hz.push [.atom, .tail, .mark .closeBracket] (by simp [ho]) (if_pos ho)
    refine .seq ((expressionTracks n).required hlength trivial) ?_
    intro e v hv
    exact .seq (hv.expect (by decide) trivial) fun c v hv => .pure hv
  · exact .seq ((expressionTracks n).expression (hz.atom (P := [.tail]) hu (if_neg ho))) fun r v hr => .pure hr.map

theorem assignment_tracks (h : Alive last W (.name :: .mark .assign :: .atom :: .tail :: K) x) :
    Reads last (assignment? (σ := σ) n) x (Found last W K) (Blames last W) := by
  refine .seq (h.name trivial) fun t y hy => .seq (hy.expect (by decide) trivial) ?_
  intro q z hz
  exact .seq ((expressionTracks n).expression hz) fun r u hr => .pure hr.map

theorem elementAssignment_tracks
    (h : Alive last W (.name :: .mark .openBracket :: .atom :: .tail :: .mark .closeBracket :: .mark .assign :: .atom ::
      .tail :: K) x) :
    Reads last (elementAssignment (σ := σ) n) x (fun _ => Alive last W K) (Blames last W) := by
  refine .seq (h.name trivial) fun t y hy => .seq (hy.expect (by decide) trivial) ?_
  intro o y hy
  refine .seq ((expressionTracks n).required hy trivial) fun i y hy => .seq (hy.expect (by decide) trivial) ?_
  intro c y hy
  exact .seq (hy.expect (by decide) trivial) fun q y hy => .seq ((expressionTracks n).required hy trivial) fun e z hz => .pure hz

theorem returned_tracks (h : Alive last W (.returnTail :: K) x) :
    Reads last (returned (σ := σ) n) x (fun _ => Alive last W K) (Blames last W) := by
  refine .bind (.nextKind ?_)
  intro t ht
  by_cases hk : t.kind.endsStatement = true
  · rw [if_pos hk]
    exact .pure (h.pass fun u hu => if_pos (hu.unique ht ▸ hk))
  · rw [if_neg hk]
    exact .seq ((expressionTracks n).required (h.atom (P := [.tail]) ht (if_neg hk)) trivial) fun e y hy => .pure hy

theorem parameters_tracks (h : Alive last W (.name :: .paramsTail :: K) x) :
    Reads last (parameters (σ := σ) n) x (fun _ => Alive last W K) (Blames last W) := by
  induction n generalizing x with
  | zero => exact .throw (.inl rfl)
  | succ n ih =>
    rw [parameters]
    refine .seq (h.name trivial) fun t y hy => .bind (.takeIf (by decide) (fun c z hx hc => ?_) fun t ht hp => ?_)
    · subst hx
      exact .pure (hy.push [] (by simp [hc]) (if_pos hc))
    refine .bind (.expect (by decide) (fun c z hx hc => ?_) fun v hv hc => ?_)
    · subst hx
      have more := hy.push [.name, .paramsTail] (by simp [hc]) (by simp [Frame.act, hc])
      exact .seq (ih more) fun ps u hu => .pure hu
    · obtain rfl := hv.unique ht
      exact (hy.refused ht (by simp [Frame.act, hp, hc])).blames ht rfl trivial

/-- Neither a separator nor the end of the scope is next. -/
def StatementNext (last : Except Fault Token) (x : List Token) : Prop :=
  ∀ t, Next last x t → Frame.scope.act t = .statement t

section Named

variable {t : Token}

theorem act_name (hs : Frame.scope.act t = .statement t) (hk : t.kind = .name) :
    Frame.scope.act t = .push [.nameHead, .ended, .scope] := by rw [hs, Move.statement, hk]

/-- A name starts an expression, if nothing is assigned to it or to an element of it. -/
theorem Alive.plain (h : Alive last W (.scope :: K) (t :: x)) (hs : Frame.scope.act t = .statement t) (hk : t.kind = .name)
    (hassign : ∀ u, Next last x u → u.kind ≠ .assign)
    (hindex : ∀ o z, x = o :: z → o.kind = .openBracket → ¬ Assigns 1 z) :
    Alive last W (.atom :: .tail :: .ended :: .scope :: K) (t :: x) := by
  have hatom : Frame.atom.act t = .push [.suffix] := by simp [Frame.act, Move.atom, hk, UnaryOp.ofKind?]
  exact h.same (.cons (feed_push (act_name hs hk)) (feed_push hatom) (.plain hassign hindex))

theorem Alive.assignment {q : Token} (h : Alive last W (.scope :: K) (t :: q :: x)) (hs : Frame.scope.act t = .statement t)
    (hk : t.kind = .name) (hq : q.kind = .assign) :
    Alive last W (.name :: .mark .assign :: .atom :: .tail :: .ended :: .scope :: K) (t :: q :: x) := by
  have hname : Frame.name.act t = .push [] := if_pos hk
  have hhead : Frame.nameHead.act q = .push [.atom, .tail] := if_pos hq
  apply h.same
  refine .cons (feed_push (act_name hs hk)) (feed_push hname) ?_
  exact .cons (feed_push hhead) (feed_push (act_mark hq)) .refl

theorem Alive.elementAssignment {o : Token} (h : Alive last W (.scope :: K) (t :: o :: x))
    (hs : Frame.scope.act t = .statement t) (hk : t.kind = .name) (ho : o.kind = .openBracket) (hx : Assigns 1 x) :
    Alive last W (.name :: .mark .openBracket :: .atom :: .tail :: .mark .closeBracket :: .mark .assign :: .atom ::
      .tail :: .ended :: .scope :: K) (t :: o :: x) := by
  have hname : Frame.name.act t = .push [] := if_pos hk
  have hhead : Frame.nameHead.act o = .push [.atom, .tail, .mark .closeBracket, .elementTail] := by simp [Frame.act, ho]
  apply h.same
  refine .cons (feed_push (act_name hs hk)) (feed_push hname) ?_
  exact .cons (feed_push hhead) (feed_push (act_mark ho)) (.indexed hx)

end Named

theorem plainStatement_tracks (h : Alive last W (.scope :: K) x) (hx : StatementNext last x)
    (hatom : ∀ t, Next last x t → t.kind ≠ .name → Move.statement t = .atom t [.tail, .ended, .scope]) :
    Reads last (plainStatement? (σ := σ) n) x (Found last W (.ended :: .scope :: K)) (Blames last W) := by
  refine .bind (.nextKind ?_)
  intro t ht
  have hs := hx t ht
  by_cases hk : t.kind = .name
  · rw [if_pos hk]
    obtain ⟨x, rfl⟩ := ht.cons (by simp [hk])
    refine .bind (.peekKind (p := [t]) ?_)
    intro u hu
    by_cases hq : u.kind = .assign
    · rw [if_pos hq]
      obtain ⟨x, rfl⟩ := hu.cons (by simp [hq])
      exact assignment_tracks (h.assignment hs hk hq)
    rw [if_neg hq]
    by_cases ho : u.kind = .openBracket
    · rw [if_pos ho]
      obtain ⟨x, rfl⟩ := hu.cons (by simp [ho])
      refine .bind (.assignsElement (p := [t, u]) (.inr fun _ => .inl rfl) ?_)
      intro r hr
      by_cases he : r = true
      · rw [if_pos he]
        exact .seq (elementAssignment_tracks (h.elementAssignment hs hk ho (hr.mp he))) fun s y hy => .pure hy
      · rw [if_neg he]
        exact bare_tracks (h.plain hs hk (fun v hv => hv.unique hu ▸ hq) fun _ _ hx _ => by cases hx; exact mt hr.mpr he)
    · rw [if_neg ho]
      refine bare_tracks (h.plain hs hk (fun v hv => hv.unique hu ▸ hq) ?_)
      intro o z hx hk
      subst hx
      exact absurd (hu.head ▸ hk) ho
  · rw [if_neg hk]
    exact bare_tracks (h.atom ht (hs.trans (hatom t ht hk)))

end Plain

/-! ## Statements with blocks -/

/-- The readers of statements at depth `n` keep in step. -/
structure StatementTracks (σ : Type) [TokenStream σ] (last : Except Fault Token) (W : List Token) (n : Nat) : Prop where
  scope {K : List Frame} {x : List Token} : Alive last W (.scope :: K) x →
    Reads last (scope (σ := σ) n) x (fun _ y => Alive last W (.scope :: K) y ∧ ScopeEnds last y) (Blames last W)
  block {K : List Frame} {x : List Token} : Alive last W (braced K) x →
    Reads last (block (σ := σ) n) x (fun _ => Alive last W K) (Blames last W)
  statement {K : List Frame} {x : List Token} : Alive last W (.scope :: K) x → StatementNext last x →
    Reads last (statement? (σ := σ) n) x (Found last W (.ended :: .scope :: K)) (Blames last W)
  conditional {K : List Frame} {x : List Token} : Alive last W (.atom :: .tail :: braced (.afterThen :: .scope :: K)) x →
    Reads last (conditional (σ := σ) n) x (fun _ => Alive last W (.ended :: .scope :: K)) (Blames last W)

/-- Layout after the block of an `if`, and an `else`. -/
theorem Alive.otherwise {f : Frame} {k : Token} {gap : List Token} (h : Alive last W (f :: K) (gap ++ k :: x))
    (hf : f = .afterThen ∨ f = .maybeElse) (hg : ∀ t ∈ gap, isLayout t) (hk : k.kind = .elseWord) :
    Alive last W (braced (.ended :: K)) x := by
  induction gap generalizing f with
  | nil =>
    refine h.push (braced [.ended]) (by simp [hk]) ?_
    rcases hf with rfl | rfl <;> simp [Frame.act, hk]
  | cons g gap ih =>
    obtain ⟨hl, hg⟩ := List.forall_mem_cons.mp hg
    have hm : Alive last W (.maybeElse :: K) (gap ++ k :: x) := by
      refine h.push [.maybeElse] hl.kind_ne ?_
      rcases hf with rfl | rfl <;> exact if_pos hl
    exact ih hm (.inr rfl) hg

namespace StatementTracks

variable {n : Nat} (ih : StatementTracks σ last W n)

include ih

theorem scope_succ (h : Alive last W (.scope :: K) x) : Reads last (Grammar.scope (σ := σ) (n + 1)) x
    (fun _ y => Alive last W (.scope :: K) y ∧ ScopeEnds last y) (Blames last W) := by
  rw [Grammar.scope]
  refine .bind (.nextKind ?_)
  intro t ht
  by_cases hk : t.kind = .endOfText ∨ t.kind.closesScope = true
  · rw [if_pos hk]
    exact .pure ⟨h, fun u hu => hu.unique ht ▸ hk.imp_right beq_iff_eq.mp⟩
  rw [if_neg hk]
  by_cases hs : t.kind.isSeparator = true
  · rw [if_pos hs]
    have hne : t.kind ≠ .endOfText := fun he => hk (.inl he)
    obtain ⟨x, rfl⟩ := ht.cons hne
    exact .bind (.take (ih.scope (h.push [.scope] hne (act_separator hs))))
  rw [if_neg hs]
  have hnext : StatementNext last x := fun u hu => hu.unique ht ▸ (if_neg hk).trans (if_neg hs)
  refine .seq (ih.statement h hnext) ?_
  intro r y hr
  cases r with
  | none => exact .bind (.next fun u hu => .throw (Stuck.blames hr hu rfl trivial))
  | some s =>
    refine .bind (.nextKind ?_)
    intro u hu
    have hr : Alive last W (.ended :: .scope :: K) y := hr
    by_cases he : u.kind.endsStatement = true
    · rw [if_pos he]
      have hscope : Alive last W (.scope :: K) y := hr.of_feed fun v hv => feed_ended (hv.unique hu ▸ he)
      exact .seq (ih.scope hscope) fun b z hz => .pure hz
    · rw [if_neg he]
      have hact : Frame.ended.act u = .refuse := by
        rw [Kind.endsStatement, Bool.or_eq_true, not_or, beq_iff_eq] at he
        exact (if_neg he.1).trans (if_neg he.2)
      exact .fail fun v hv => (hr.refused hu hact).blames hv rfl trivial

theorem block_succ (h : Alive last W (braced K) x) :
    Reads last (Grammar.block (σ := σ) (n + 1)) x (fun _ => Alive last W K) (Blames last W) := by
  rw [Grammar.block]
  refine .seq (h.expect (by decide) trivial) fun o y hy => .seq (ih.scope hy) ?_
  intro b z hz
  have hclose : Alive last W (.mark .closeBrace :: K) z := hz.1.pass fun t ht =>
    if_pos ((hz.2 t ht).imp_right beq_iff_eq.mpr)
  exact .seq (hclose.expect (by decide) trivial) fun c u hu => .pure hu

theorem conditional_succ (h : Alive last W (.atom :: .tail :: braced (.afterThen :: .scope :: K)) x) :
    Reads last (Grammar.conditional (σ := σ) (n + 1)) x (fun _ => Alive last W (.ended :: .scope :: K))
      (Blames last W) := by
  rw [Grammar.conditional]
  refine .seq ((expressionTracks n).required h trivial) fun e y hy => .seq (ih.block hy) ?_
  intro b z hz
  refine .bind (.pastLayout (g := []) (x := z) (.inr fun _ => .inl rfl) (fun _ h => by cases h) ?_)
  intro gap u hu hg hstop
  rw [List.nil_append] at hu ⊢
  subst hu
  refine .bind (.peekKind ?_)
  intro k hk
  by_cases hkind : k.kind = .elseWord
  · rw [if_pos hkind]
    obtain ⟨u, rfl⟩ := hk.cons (by simp [hkind])
    have hblock := hz.otherwise (.inl rfl) hg hkind
    exact .bind (.skipPast (.seq (ih.block hblock) fun b' v hv => .pure hv))
  · rw [if_neg hkind]
    refine .pure (hz.same (.noElse ?_))
    intro gap' k' v hv hg' hk'
    -- An `else` after layout would stand where the layout stops.
    obtain ⟨-, rfl⟩ := layout_unique hv.symm hg' (by unfold isLayout; rw [hk']; decide) hg hstop
    exact hkind (hk.head ▸ hk')

theorem statement_succ (h : Alive last W (.scope :: K) x) (hx : StatementNext last x) :
    Reads last (statement? (σ := σ) (n + 1)) x (Found last W (.ended :: .scope :: K)) (Blames last W) := by
  rw [statement?]
  refine .bind (.nextKind ?_)
  intro t ht
  have hs := hx t ht
  rw [Move.statement] at hs
  split
  · rename_i hk
    obtain ⟨x, rfl⟩ := ht.cons (by simp [hk])
    have hd := h.push [.name, .mark .assign, .initial, .ended, .scope] (by simp [hk]) (by rw [hs, hk])
    exact .bind (.take (declaration_tracks hd))
  · rename_i hk
    obtain ⟨x, rfl⟩ := ht.cons (by simp [hk])
    have hc := h.push (.atom :: .tail :: braced [.afterThen, .scope]) (by simp [hk]) (by rw [hs, hk])
    exact .bind (.take (.seq (ih.conditional hc) fun s y hy => .pure hy))
  · rename_i hk
    obtain ⟨x, rfl⟩ := ht.cons (by simp [hk])
    have hc := h.push (.atom :: .tail :: braced [.ended, .scope]) (by simp [hk]) (by rw [hs, hk])
    refine .bind (.take (.seq ((expressionTracks n).required hc trivial) ?_))
    intro e y hy
    exact .seq (ih.block hy) fun b z hz => .pure hz
  · rename_i hk
    obtain ⟨x, rfl⟩ := ht.cons (by simp [hk])
    have hf := h.push (.name :: .mark .openParen :: .name :: .paramsTail :: braced [.ended, .scope]) (by simp [hk])
      (by rw [hs, hk])
    refine .bind (.take (.seq (hf.name trivial) fun f y hy => .seq (hy.expect (by decide) trivial) ?_))
    intro o y hy
    exact .seq (parameters_tracks hy) fun ps y hy => .seq (ih.block hy) fun b z hz => .pure hz
  · rename_i hk
    obtain ⟨x, rfl⟩ := ht.cons (by simp [hk])
    have hr := h.push [.returnTail, .ended, .scope] (by simp [hk]) (by rw [hs, hk])
    exact .bind (.take (.seq (returned_tracks hr) fun s y hy => .pure hy))
  · rename_i hk
    have hscope : Frame.scope.act t = .push [.scope, .mark .closeBrace, .ended, .scope] := by rw [hs, hk]
    have hb : Alive last W (braced (.ended :: .scope :: K)) x := h.of_feed fun u hu => by
      rw [hu.unique ht, feed_push hscope, feed_push (act_mark hk)]
      rfl
    exact .seq (ih.block hb) fun b y hy => .pure hy
  · refine plainStatement_tracks h hx ?_
    intro u hu hn
    obtain rfl := hu.unique ht
    simp only [Move.statement]

end StatementTracks

theorem statementTracks (n : Nat) : StatementTracks σ last W n := by
  induction n with
  | zero => constructor <;> intros <;> exact .throw (.inl rfl)
  | succ n ih => exact ⟨ih.scope_succ, ih.block_succ, ih.statement_succ, ih.conditional_succ⟩

/-! ## Programs -/

/-- A program is read if the automaton accepts its tokens and the end; else the fault is
    about the first token that it refuses. -/
theorem wholeScope_tracks (n : Nat) : Reads last (wholeScope (σ := σ) n) W
    (fun _ _ => ∃ e, last = .ok e ∧ (feeds [.scope] (W ++ [e])).isSome = true) (Blames last W) := by
  have hstart : Alive last W [.scope] W := ⟨[], [.scope], rfl, rfl, .refl⟩
  refine .seq ((statementTracks n).scope hstart) fun b y hy => .bind (.next ?_)
  intro t ht
  have hend : Alive last W [] y := hy.1.pass fun u hu => if_pos ((hy.2 u hu).imp_right beq_iff_eq.mpr)
  by_cases hk : t.kind = .endOfText
  · rw [if_pos hk]
    obtain ⟨u, c, hW, hu, hc⟩ := hend
    cases ht with
    | token hne => exact absurd hk hne
    | final hl =>
      refine .pure ⟨t, hl, ?_⟩
      have hlast := hc [] [] t rfl nofun (.final hl hk)
      rw [hW, List.append_nil, feeds_append, hu]
      exact hlast.trans (by rw [List.nil_append, feeds_singleton, feed, if_pos hk]; rfl)
  · rw [if_neg hk]
    exact .throw ((hend.stuck fun u hu => if_neg (hu.unique ht ▸ hk)).blames ht rfl trivial)

end Grammar

end ScriptLang
