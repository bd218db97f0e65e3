/-
  ScriptLang.Proofs.Grammar.Alike — stacks that the tokens ahead do not tell apart.

  `Same last c K x`: over the tokens `x` and the end, `c` and `K` refuse a token at the same
  place, or none at all. A reader that has looked ahead works with frames that the automaton
  keeps open, or has closed already; each such choice is a fact of this kind.
  - `Same.under`: two stacks with the same frames above a closing bracket behave the same
    until that bracket comes, which is where `closing` finds it.
  - `Same.plain` / `Same.indexed`: a name that begins an expression, or an element that is
    assigned to.
  - `Same.noElse`: no `else` is missed where none comes after layout.
-/

import ScriptLang.Proofs.Grammar.Automaton
import ScriptLang.Proofs.Grammar.Completeness

namespace ScriptLang.Grammar

open Token (Kind)

variable {last : Except Fault Token}

/-- With `x` ahead, the two stacks refuse a token at the same place, or none at all. -/
def Same (last : Except Fault Token) (c K : List Frame) (x : List Token) : Prop :=
  ∀ p z t, x = p ++ z → (∀ u ∈ p, u.kind ≠ .endOfText) → Next last z t →
    (feeds c (p ++ [t])).isSome = (feeds K (p ++ [t])).isSome

namespace Same

variable {c c' d K K' : List Frame} {x : List Token} {t : Token}

theorem refl : Same last c c x := fun _ _ _ _ _ _ => rfl

theorem trans (h : Same last c d x) (h' : Same last d K x) : Same last c K x := fun p z t hx hp ht =>
  (h p z t hx hp ht).trans (h' p z t hx hp ht)

/-- Nothing tells two stacks apart that the next token brings together. -/
theorem of_feed (h : ∀ t, Next last x t → feed c t = feed K t) : Same last c K x := by
  intro p z t hx hp ht
  subst hx
  rcases p with _ | ⟨u, p⟩
  · rw [List.nil_append, feeds_singleton, feeds_singleton, h t ht]
  · rw [List.cons_append, feeds_cons, feeds_cons, h u (.token (hp u (List.mem_cons_self ..)))]

theorem cons (h : feed c t = some c') (h' : feed K t = some K') (hs : Same last c' K' x) : Same last c K (t :: x) := by
  intro p z v hx hp hv
  rcases p with _ | ⟨u, p⟩
  · obtain rfl : t :: x = z := hx
    rw [hv.head, List.nil_append, feeds_singleton, feeds_singleton, h, h']
    rfl
  · obtain ⟨rfl, rfl⟩ : t = u ∧ x = p ++ z := List.cons.inj hx
    rw [List.cons_append, feeds_cons, feeds_cons, h, h']
    exact hs p z v rfl (fun u hu => hp u (List.mem_cons_of_mem _ hu)) hv

theorem tail (h : Same last c K (t :: x)) (ht : t.kind ≠ .endOfText) (hK : feed K t = some K') :
    ∃ c', feed c t = some c' ∧ Same last c' K' x := by
  have hc := h [] (t :: x) t rfl nofun (.token ht)
  rw [List.nil_append, feeds_singleton, feeds_singleton, hK, Option.isSome_some, Option.isSome_iff_exists] at hc
  obtain ⟨c', hc⟩ := hc
  refine ⟨c', hc, fun p z v hx hp hv => ?_⟩
  have hs := h (t :: p) z v (by rw [hx]; rfl) (List.forall_mem_cons.mpr ⟨ht, hp⟩) hv
  rw [List.cons_append, feeds_cons, feeds_cons, hc, hK] at hs
  exact hs

end Same

/-! ## Inside brackets -/

/-- A frame that an expression may leave above a closing bracket. -/
def Frame.isInner : Frame → Bool
  | .atom | .suffix | .tail | .argsTail | .mark .closeParen | .mark .closeBracket => true
  | _ => false

/-- The closing brackets that a stack waits for. -/
def pending (P : List Frame) : Nat := P.count (.mark .closeBracket)

section

variable {f : Frame} {P S S' : List Frame} {x : List Token} {t : Token}

theorem Move.inner_atom (h : Move.atom t [] = .push P) :
    (∀ g ∈ P, g.isInner = true) ∧ pending P = 0 ∧ t.kind ≠ .openBracket ∧ t.kind ≠ .closeBracket := by
  unfold Move.atom at h
  split at h
  · rename_i hk
    cases h
    exact ⟨by decide, rfl, by simp [hk]⟩
  split at h
  · rename_i hk
    cases h
    refine ⟨by decide, rfl, ?_⟩
    revert hk
    cases t.kind <;> decide
  split at h
  · rename_i hk
    cases h
    exact ⟨by decide, rfl, by simp [hk]⟩
  split at h
  · rename_i hv
    cases h
    have hc : Constant t _ := constant_iff.mpr hv
    exact ⟨nofun, rfl, hc.kind_ne (by decide), hc.kind_ne (by decide)⟩
  · cases h

/-- An inner frame makes way for inner frames, with the brackets that its token leaves open. -/
theorem Frame.inner_push (hf : f.isInner = true) (h : f.act t = .push P) : (∀ g ∈ P, g.isInner = true) ∧
    ∀ d x, closing (pending [f] + d + 1) (t :: x) = closing (pending P + d + 1) x := by
  cases f with
  | atom =>
    obtain ⟨hP, hp, ho, hc⟩ := Move.inner_atom h
    refine ⟨hP, fun d x => ?_⟩
    rw [hp]
    exact closing_other _ ho hc
  | suffix =>
    rw [act] at h
    split at h
    · rename_i hk
      cases h
      exact ⟨by decide, fun d x => closing_kind _ hk (by decide)⟩
    split at h
    · rename_i hk
      cases h
      refine ⟨by decide, fun d x => ?_⟩
      have hp : pending [atom, tail, mark .closeBracket] + d + 1 = pending [suffix] + d + 2 := by
        simp [pending]; omega
      rw [hp]
      exact closing_open _ hk
    · cases h
  | tail =>
    rw [act] at h
    split at h
    · rename_i hk
      cases h
      refine ⟨by decide, fun d x => closing_other _ ?_ ?_⟩ <;> intro he <;> rw [he] at hk <;> cases hk
    · cases h
  | argsTail =>
    rw [act] at h
    split at h
    · rename_i hk
      cases h
      exact ⟨List.forall_mem_nil _, fun d x => closing_kind _ hk (by decide)⟩
    split at h
    · rename_i hk
      cases h
      exact ⟨by decide, fun d x => closing_kind _ hk (by decide)⟩
    · cases h
  | mark k =>
    rw [act] at h
    split at h
    · rename_i hk
      cases h
      refine ⟨List.forall_mem_nil _, fun d x => ?_⟩
      cases k <;> cases hf
      · exact closing_kind _ hk (by decide)
      · have hp : pending [mark .closeBracket] + d + 1 = d + 2 := by simp [pending]; omega
        rw [hp]
        exact (closing_close _ hk).trans (by simp [pending])
    · cases h
  | _ => cases hf

theorem Frame.inner_pass (hf : f.isInner = true) (h : f.act t = .pass) : pending [f] = 0 := by
  cases f with
  | suffix | tail | atom | argsTail => rfl
  | mark k =>
    rw [act] at h
    split at h <;> cases h
  | _ => cases hf

/-- A token at inner frames above a closing bracket: it is refused, or there are inner frames
    above that bracket again, or it is that bracket. What lies below makes no difference. -/
theorem feed_inner (hP : ∀ g ∈ P, g.isInner = true) (t : Token) :
    (∀ S, feed (P ++ .mark .closeBracket :: S) t = none) ∨
    (∃ Q, (∀ g ∈ Q, g.isInner = true) ∧
      (∀ S, feed (P ++ .mark .closeBracket :: S) t = some (Q ++ .mark .closeBracket :: S)) ∧
      ∀ x, closing (pending P + 1) (t :: x) = closing (pending Q + 1) x) ∨
    ((∀ S, feed (P ++ .mark .closeBracket :: S) t = some S) ∧ ∀ x, closing (pending P + 1) (t :: x) = some x) := by
  induction P with
  | nil =>
    by_cases hk : t.kind = .closeBracket
    · refine .inr (.inr ⟨fun S => feed_push (act_mark hk), fun x => ?_⟩)
      exact (closing_close 0 hk).trans (by simp [closing])
    · exact .inl fun S => feed_refuse (act_mark_ne hk)
  | cons f P ih =>
    obtain ⟨hf, hP⟩ := List.forall_mem_cons.mp hP
    have hcount : pending (f :: P) = pending [f] + pending P := by
      rw [← List.singleton_append, pending, List.count_append]
      rfl
    cases ha : f.act t with
    | push Q =>
      obtain ⟨hQ, hd⟩ := Frame.inner_push hf ha
      refine .inr (.inl ⟨Q ++ P, List.forall_mem_append.mpr ⟨hQ, hP⟩, fun S => ?_, fun x => ?_⟩)
      · rw [List.append_assoc]
        exact feed_push ha
      · rw [hcount, hd, pending, pending, pending, List.count_append]
    | pass =>
      rw [hcount, Frame.inner_pass hf ha, Nat.zero_add]
      have hfeed (S : List Frame) : feed (f :: P ++ .mark .closeBracket :: S) t = feed (P ++ .mark .closeBracket :: S) t :=
        feed_pass ha
      simpa only [hfeed] using ih hP
    | refuse => exact .inl fun S => feed_refuse ha

/-- Stacks that differ below a closing bracket only behave the same until it comes, and from
    there on if what is below does. -/
theorem Same.under (hP : ∀ g ∈ P, g.isInner = true)
    (h : ∀ z, closing (pending P + 1) x = some z → Same last S S' z) :
    Same last (P ++ .mark .closeBracket :: S) (P ++ .mark .closeBracket :: S') x := by
  induction x generalizing P with
  | nil =>
    intro p z t hx _ _
    obtain ⟨rfl, rfl⟩ := List.append_eq_nil_iff.mp hx.symm
    rw [List.nil_append, feeds_singleton, feeds_singleton]
    rcases feed_inner hP t with hn | ⟨Q, -, hQ, -⟩ | ⟨hS, -⟩
    · rw [hn, hn]
    · rw [hQ, hQ]; rfl
    · rw [hS, hS]; rfl
  | cons t x ih =>
    rcases feed_inner hP t with hn | ⟨Q, hQ, hfeed, hd⟩ | ⟨hS, hx⟩
    · exact .of_feed fun u hu => by rw [hu.head, hn, hn]
    · exact .cons (hfeed S) (hfeed S') (ih hQ fun z hz => h z ((hd x).trans hz))
    · exact .cons (hS S) (hS S') (h x (hx x))

end

/-! ## Starts of statements -/

section

variable {f : Frame} {P K : List Frame} {t o q : Token} {x : List Token}

/-- A frame at which an atom starts, whichever frames come after the atom. -/
theorem feed_atom (h : f.act t = .atom t P) : feed (f :: K) t = feed (.atom :: (P ++ K)) t := by
  have ha : Frame.atom.act t = .atom t [] := rfl
  simp only [feed, h, ha, Move.atom]
  by_cases hp : t.kind = .openParen
  · simp only [if_pos hp]
    rfl
  by_cases hu : (UnaryOp.ofKind? t.kind).isSome = true
  · simp only [if_neg hp, if_pos hu]
    rfl
  by_cases hn : t.kind = .name
  · simp only [if_neg hp, if_neg hu, if_pos hn]
    rfl
  simp only [if_neg hp, if_neg hu, if_neg hn]
  rcases literalOf t with _ | _ | _ <;> rfl

/-- An index that is not assigned to is one of an expression. -/
theorem Same.element (h : ¬ Assigns 1 x) : Same last ([.atom, .tail, .mark .closeBracket, .elementTail] ++ K)
    ([.atom, .tail, .mark .closeBracket, .tail] ++ K) x := by
  refine Same.under (P := [.atom, .tail]) (by decide) fun z hz => .of_feed fun q hq => feed_congr ?_
  have hk : q.kind ≠ .assign := fun hk => by
    obtain ⟨z, rfl⟩ := hq.cons (by simp [hk])
    exact h ⟨q, z, hz, hk⟩
  simp [Frame.act, hk]

/-- An index that is assigned to has an equals sign and a value after it. -/
theorem Same.indexed (h : Assigns 1 x) : Same last ([.atom, .tail, .mark .closeBracket, .elementTail] ++ K)
    ([.atom, .tail, .mark .closeBracket, .mark .assign, .atom, .tail] ++ K) x := by
  obtain ⟨q, y, hx, hq⟩ := h
  refine Same.under (P := [.atom, .tail]) (by decide) fun z hz => .of_feed ?_
  intro u hu
  obtain rfl := Option.some.inj (hx.symm.trans hz)
  obtain rfl := hu.head
  have he : Frame.elementTail.act u = .push [.atom, .tail] := if_pos (.inl hq)
  exact (feed_push he).trans (feed_push (act_mark hq)).symm

/-- A name that nothing is assigned to, nor to an element of it, begins an expression. -/
theorem Same.plain (hassign : ∀ u, Next last x u → u.kind ≠ .assign)
    (hindex : ∀ o z, x = o :: z → o.kind = .openBracket → ¬ Assigns 1 z) :
    Same last (.nameHead :: K) (.suffix :: .tail :: K) x := by
  by_cases hb : ∃ o z, x = o :: z ∧ o.kind = .openBracket
  · obtain ⟨o, z, rfl, ho⟩ := hb
    have hn : Frame.nameHead.act o = .push [.atom, .tail, .mark .closeBracket, .elementTail] := by simp [Frame.act, ho]
    have hs : Frame.suffix.act o = .push [.atom, .tail, .mark .closeBracket] := by simp [Frame.act, ho]
    exact .cons (feed_push hn) (feed_push hs) (.element (hindex o z rfl ho))
  refine .of_feed ?_
  intro u hu
  have hb : u.kind ≠ .openBracket := fun hk => by
    obtain ⟨z, rfl⟩ := hu.cons (by simp [hk])
    exact hb ⟨u, z, rfl, hk⟩
  have ha := hassign u hu
  by_cases hp : u.kind = .openParen
  · have hn : Frame.nameHead.act u = .push [.atom, .tail, .argsTail, .tail] := by simp [Frame.act, hp]
    have hs : Frame.suffix.act u = .push [.atom, .tail, .argsTail] := if_pos hp
    exact (feed_push hn).trans (feed_push hs).symm
  · have hn : Frame.nameHead.act u = Frame.tail.act u := by simp [Frame.act, ha, hb, hp]
    have hs : Frame.suffix.act u = .pass := by simp [Frame.act, hb, hp]
    exact (feed_congr hn).trans (feed_pass hs).symm

/-! ## Ends of statements -/

theorem act_separator (h : t.kind.isSeparator = true) : Frame.scope.act t = .push [.scope] := by
  have hk : ¬ (t.kind = .endOfText ∨ t.kind.closesScope = true) := by
    revert h
    cases t.kind <;> decide
  rw [Frame.act, if_neg hk, if_pos h]

/-- What ends a statement is as good for the scope. -/
theorem feed_ended (h : t.kind.endsStatement = true) : feed (.ended :: .scope :: K) t = feed (.scope :: K) t := by
  by_cases hs : t.kind.isSeparator = true
  · have he : Frame.ended.act t = .push [] := if_pos hs
    exact (feed_push he).trans (feed_push (act_separator hs)).symm
  · have hk : t.kind = .endOfText := by simpa [Kind.endsStatement, hs] using h
    have he : Frame.ended.act t = .pass := by simp [Frame.act, hk]; decide
    exact feed_pass he

theorem Same.maybeElse (h : NoElse x) : Same last (.maybeElse :: .scope :: K) (.scope :: K) x := by
  induction x with
  | nil => exact .of_feed fun t ht => feed_pass (by cases ht with | final _ he => simp [Frame.act, he])
  | cons t x ih =>
    by_cases hl : isLayout t
    · have hm : Frame.maybeElse.act t = .push [.maybeElse] := if_pos hl
      refine .cons (feed_push hm) (feed_push (act_separator hl.isSeparator)) (ih ?_)
      intro gap k y hx hg
      exact h (t :: gap) k y (by rw [hx]; rfl) (List.forall_mem_cons.mpr ⟨hl, hg⟩)
    · have he : t.kind ≠ .elseWord := h [] t x rfl (List.forall_mem_nil _)
      have hm : Frame.maybeElse.act t = .pass := (if_neg hl).trans (if_neg he)
      exact .of_feed fun u hu => feed_pass (hu.head ▸ hm)

/-- Where no `else` comes after layout, an `if` ends as every statement does. -/
theorem Same.noElse (h : NoElse x) : Same last (.afterThen :: .scope :: K) (.ended :: .scope :: K) x := by
  by_cases hg : ∃ t y, x = t :: y ∧ isLayout t
  · obtain ⟨t, y, rfl, hl⟩ := hg
    have ha : Frame.afterThen.act t = .push [.maybeElse] := if_pos hl
    have he : Frame.ended.act t = .push [] := if_pos hl.isSeparator
    refine .cons (feed_push ha) (feed_push he) (.maybeElse ?_)
    intro gap k z hx hg
    exact h (t :: gap) k z (by rw [hx]; rfl) (List.forall_mem_cons.mpr ⟨hl, hg⟩)
  refine .of_feed fun t ht => feed_congr ?_
  have hl : ¬ isLayout t := fun hl => by
    obtain ⟨y, rfl⟩ := ht.cons hl.kind_ne
    exact hg ⟨t, y, rfl, hl⟩
  have he : t.kind ≠ .elseWord := fun hk => by
    obtain ⟨y, rfl⟩ := ht.cons (by simp [hk])
    exact h [] t y rfl (List.forall_mem_nil _) hk
  have hs : t.kind.isSeparator = true ↔ t.kind = .semicolon := by
    revert hl
    unfold isLayout
    cases t.kind <;> simp <;> decide
  calc Frame.afterThen.act t
      _ = if t.kind = .semicolon then .push [] else if t.kind = .endOfText then .pass else .refuse :=
        (if_neg hl).trans (if_neg he)
      _ = Frame.ended.act t := by simp only [Frame.act, hs]

end

end ScriptLang.Grammar
