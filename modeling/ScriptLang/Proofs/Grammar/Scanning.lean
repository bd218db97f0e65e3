/-
  ScriptLang.Proofs.Grammar.Scanning — the search for the closing bracket, and the parse.

  After a name and an opening bracket, `assignsElement` counts square brackets and nothing else,
  over whatever comes, and by what it finds a statement is read as an assignment or as an
  expression. Where an index can be read, it counts what the reader of the index takes.
  - `assignsElement_step` / `assignsElement_run`: a token counts by its kind, and a run of tokens
    as many brackets as they open and close; nothing is taken.
  - `balanced_scanned`: over balanced tokens the search goes to the bracket behind them, where it
    has no bracket open, and not before.
  - `scan_agrees`: so the choice rejects no statement that can be read either way.
-/

import ScriptLang.Proofs.Grammar.Foresight
import ScriptLang.Proofs.Grammar.Peeking

namespace ScriptLang

open Grammar Lookahead
open Token (Kind)

variable {σ : Type} [TokenStream σ] {e : Token} {s : Lookahead σ}

/-! ## The search -/

/-- Looking at a token buffers it and all before it, and takes none. -/
theorem peekKind_ahead {p z : List Token} (hs : Ahead (.ok e) s (p ++ z)) : ∃ u s', Next (.ok e) z u ∧
    peekKind p.length s = .ok u.kind s' ∧ Filled s s' ∧ Ahead (.ok e) s' (p ++ z) := by
  have hpeek : Reads (.ok e) (peek (σ := σ) p.length) (p ++ z) (fun u y => Next (.ok e) z u ∧ y = p ++ z)
      fun _ _ => False := .peek fun u hu => ⟨hu, rfl⟩
  obtain ⟨u, s', _, hp, hs', hu, rfl⟩ := hpeek.exists_ok hs
  refine ⟨u, s', hu, ?_, Looks.peek _ _ _ _ hp, hs'⟩
  simp only [peekKind, Bind.bind, EStateM.bind, hp]
  rfl

/-- A token before the end counts by its kind. -/
theorem assignsElement_step {p z : List Token} {t : Token} (hs : Ahead (.ok e) s (p ++ t :: z)) (depth : Nat) :
    ∃ s', Filled s s' ∧ Ahead (.ok e) s' (p ++ t :: z) ∧ ∀ n,
      assignsElement (n + 1) p.length (depth + 1) s = assignsElement n (p.length + 1) (depthAfter depth t.kind) s' := by
  obtain ⟨u, s', hu, hpeek, hfilled, hs'⟩ := peekKind_ahead hs
  obtain rfl := hu.head
  have hne : u.kind ≠ .endOfText := hs.kind_ne u (by simp)
  refine ⟨s', hfilled, hs', fun n => ?_⟩
  rw [assignsElement]
  simp only [Bind.bind, EStateM.bind, hpeek]
  revert hne
  cases u.kind <;> first | exact fun _ => rfl | exact fun h => absurd rfl h

/-- The search goes over tokens as their brackets say, and takes none of them. -/
theorem assignsElement_run {w : List Token} {p z : List Token} {d d' : Nat} (hs : Ahead (.ok e) s (p ++ (w ++ z)))
    (h : Takes d w d') : ∃ s', Filled s s' ∧ Ahead (.ok e) s' (p ++ (w ++ z)) ∧ ∀ n,
      assignsElement (n + w.length) p.length d s = assignsElement n (p.length + w.length) d' s' := by
  induction w generalizing s p d with
  | nil =>
    obtain rfl : d' = d := h.left
    exact ⟨s, .refl, hs, fun n => rfl⟩
  | cons t w ih =>
    obtain ⟨depth, rfl, hw⟩ := h.cons
    obtain ⟨s₁, hfilled, hs₁, hstep⟩ := assignsElement_step hs depth
    have happend : p ++ t :: (w ++ z) = (p ++ [t]) ++ (w ++ z) := by simp
    have hlength : (p ++ [t]).length = p.length + 1 := by simp
    obtain ⟨s', hfilled', hs', hrun⟩ := ih (s := s₁) (p := p ++ [t]) (by rw [← happend]; exact hs₁) hw
    rw [← happend] at hs'
    refine ⟨s', hfilled.trans hfilled', hs', fun n => ?_⟩
    have := hrun n
    rw [hlength] at this
    rw [List.length_cons, ← Nat.add_assoc, hstep, this]
    congr 1
    omega

/-- The search buffers items, and does nothing else to the lookahead. -/
theorem assignsElement_looks (n ahead depth : Nat) : Looks (σ := σ) (assignsElement n ahead depth) := by
  induction n generalizing ahead depth with
  | zero => exact .throw
  | succ n ih =>
    cases depth with
    | zero => exact .bind (.peekKind ahead) fun _ => .pure
    | succ depth =>
      rw [assignsElement]
      refine .bind (.peekKind ahead) fun kind => ?_
      split
      · exact ih _ _
      · exact ih _ _
      · exact .pure
      · exact ih _ _

/-- A search that is deep enough for the tokens ahead finds out. -/
theorem assignsElement_returns {t o : Token} {x : List Token} {m : Nat} (hs : Ahead (.ok e) s (t :: o :: x))
    (hm : x.length + 2 ≤ m) : ∃ r s', assignsElement m 2 1 s = .ok r s' ∧ Filled s s' ∧ Ahead (.ok e) s' (t :: o :: x) ∧
      (r = true ↔ Assigns 1 x) := by
  have hreads : Reads (.ok e) (assignsElement (σ := σ) m 2 1) ([t, o] ++ x)
      (fun r y => (r = true ↔ Assigns 1 x) ∧ y = t :: o :: x) fun _ _ => False :=
    .assignsElement (p := [t, o]) (.inl hm) fun r hr => ⟨hr, rfl⟩
  obtain ⟨r, s', _, hr, hs', hassigns, rfl⟩ := hreads.exists_ok hs
  exact ⟨r, s', hr, assignsElement_looks _ _ _ _ _ _ hr, hs', hassigns⟩

/-! ## The index -/

/-- After `k` tokens behind the bracket the search from `s` stands at the next one, with `d`
    brackets open; it has taken none of the tokens `x`. -/
def Scanned (e : Token) (s : Lookahead σ) (x : List Token) (k d : Nat) : Prop :=
  ∃ s', Filled s s' ∧ Ahead (.ok e) s' x ∧ ∀ n, assignsElement (n + k) 2 1 s = assignsElement n (2 + k) d s'

/-- Some brackets are open at every place of balanced tokens behind an open bracket. -/
theorem Grammar.Balanced.takes_take {w : List Token} (h : Balanced w) (k : Nat) :
    ∃ d, 0 < d ∧ d + closed (w.take k) = 1 + opened (w.take k) ∧ Takes 1 (w.take k) d := by
  have hk := h.upTo k
  refine ⟨1 + opened (w.take k) - closed (w.take k), by omega, by omega, by omega, fun j _ => ?_⟩
  have := h.upTo (min j k)
  rw [List.take_take]
  omega

/-- The bracket after balanced tokens closes the one before them. -/
theorem Grammar.Balanced.takes_closed {w : List Token} {c : Token} (h : Balanced w) (hc : c.kind = .closeBracket) :
    Takes 1 (w ++ [c]) 0 := by
  have hclose : opened [c] = 0 ∧ closed [c] = 1 := by simp [opened, closed, hc]
  have heven := h.even
  constructor
  · rw [opened_append, closed_append]
    omega
  · intro k hk
    rw [List.length_append, List.length_singleton] at hk
    have := h.upTo k
    rw [List.take_append_of_le_length (by omega)]
    omega

/-- Behind an index, an equals sign is found if and only if it comes after the closing bracket. -/
theorem Grammar.Balanced.assigns_iff {w y : List Token} {c : Token} (h : Balanced w) (hc : c.kind = .closeBracket) :
    Assigns 1 (w ++ c :: y) ↔ ∃ u, Next (.ok e) y u ∧ u.kind = .assign := by
  have hclosing : closing 1 (w ++ c :: y) = some y := by
    have := (h.takes_closed hc).closing_eq y
    rw [List.append_assoc, List.singleton_append] at this
    rw [this]
    simp [closing]
  rw [Assigns, hclosing]
  constructor
  · rintro ⟨q, z, hy, hq⟩
    cases hy
    exact ⟨q, .token (by simp [hq]), hq⟩
  · rintro ⟨u, hu, hk⟩
    obtain ⟨z, rfl⟩ := hu.cons (by simp [hk])
    exact ⟨u, z, rfl, hk⟩

/-- The search over balanced tokens and the bracket that closes them comes to no open bracket
    behind that bracket, and not before. -/
theorem balanced_scanned {t o c : Token} {w y : List Token} (hs : Ahead (.ok e) s (t :: o :: (w ++ c :: y)))
    (hw : Balanced w) (hc : c.kind = .closeBracket) :
    (∀ k ≤ w.length, ∃ d, 0 < d ∧ d + closed (w.take k) = 1 + opened (w.take k) ∧
      Scanned e s (t :: o :: (w ++ c :: y)) k d) ∧ Scanned e s (t :: o :: (w ++ c :: y)) (w.length + 1) 0 := by
  constructor
  · intro k hk
    obtain ⟨d, hpos, hd, htakes⟩ := hw.takes_take k
    have hsplit : w.take k ++ (w.drop k ++ c :: y) = w ++ c :: y := by
      rw [← List.append_assoc, List.take_append_drop]
    have hrun := assignsElement_run (p := [t, o]) (z := w.drop k ++ c :: y) (by rw [hsplit]; exact hs) htakes
    rw [hsplit, List.length_take, Nat.min_eq_left hk] at hrun
    exact ⟨d, hpos, hd, hrun⟩
  · have hsplit : (w ++ [c]) ++ y = w ++ c :: y := by simp
    have hrun := assignsElement_run (p := [t, o]) (z := y) (by rw [hsplit]; exact hs) (hw.takes_closed hc)
    rw [hsplit, List.length_append] at hrun
    exact hrun

/-- What is read behind the bracket is an expression of the tokens there. -/
theorem index_derives {n : Nat} {t o : Token} {x y : List Token} {i : Expr} {s' : Lookahead σ}
    (hs : Ahead (.ok e) s (t :: o :: x)) (h : (do skip 2; expression? n : Reading σ (Option Expr)) s = .ok (some i) s')
    (hs' : Ahead (.ok e) s' y) : Expression x i y := by
  obtain ⟨s₁, ht, hs₁⟩ := hs.take
  obtain ⟨s₂, ho, hs₂⟩ := hs₁.take
  have hread : expression? n s₂ = .ok (some i) s' := by
    simp only [skip, Bind.bind, EStateM.bind, ht, ho] at h
    exact h
  obtain ⟨z, hz, hi⟩ := expression?_derives hs₂ hread
  obtain rfl := hz.unique hs'
  exact hi

/-! ## The choice -/

/-- The two ways to read on where a name and a bracket come first. -/
def choice (assigns : Bool) (n : Nat) : Reading σ (Option Stmt) :=
  if assigns then do return some (← elementAssignment n) else do return (← expression? n).map .expression

theorem choice_unswayed {assigns : Bool} {n m : Nat} (h : n ≤ m) :
    Unswayed (σ := σ) (choice assigns m) (choice assigns n) := by
  cases assigns with
  | true => exact unswayed.bind (unswayed.near.elementAssignment h) fun s => unswayed.pure (some s)
  | false => exact unswayed.near.bare h

/-- What the choice that the search makes reads, is read as the statement. -/
theorem statement?_choice {t o : Token} {x : List Token} {r : Bool} {n m : Nat} {found : Option Stmt} {s₁ s' : Lookahead σ}
    (hs : Ahead (.ok e) s (t :: o :: x)) (ht : t.kind = .name) (ho : o.kind = .openBracket)
    (hscan : assignsElement m 2 1 s = .ok r s₁) (h : choice r n s = .ok found s') (hn : n ≤ m) :
    ∃ s'', statement? (m + 1) s = .ok found s'' ∧ Filled s' s'' := by
  obtain ⟨u, s₂, hu, hfirst, hs₂, hahead⟩ := peekKind_ahead (p := []) hs
  obtain rfl := hu.head
  obtain ⟨u', s₃, hu', hagain, hs₃, hahead⟩ := peekKind_ahead (p := []) hahead
  obtain rfl := hu'.head
  obtain ⟨v, s₄, hv, hsecond, hs₄, -⟩ := peekKind_ahead (p := [u']) hahead
  obtain rfl := hv.head
  -- The search starts with two tokens buffered, and so does what is read after it.
  obtain ⟨s₅, hsearch, hs₅⟩ := unswayed.assignsElement (Nat.le_refl m) 2 1 s s₄ r s₁ (hs₂.trans (hs₃.trans hs₄)) hscan
  have hfilled : Filled s s₅ := (assignsElement_looks m 2 1 s r s₁ hscan).trans hs₅
  obtain ⟨s'', hread, hs''⟩ := choice_unswayed hn s s₅ found s' hfilled h
  refine ⟨s'', ?_, hs''⟩
  have hplain : plainStatement? m s₂ = .ok found s'' := by
    simp only [List.length_nil, List.length_singleton, ht, ho] at hagain hsecond
    simp only [plainStatement?, Bind.bind, EStateM.bind, hagain, hsecond, hsearch, if_true, reduceCtorEq, if_false]
    cases r with
    | true => exact hread
    | false => exact hread
  rw [statement?]
  simp only [List.length_nil, ht] at hfirst
  simp only [Bind.bind, EStateM.bind, hfirst]
  exact hplain

/-! ## Agreement -/

/-- An assignment that can be read has an equals sign where the search looks for it. -/
theorem elementAssignment_assigns {n : Nat} {t o : Token} {x : List Token} {found : Stmt} {s' : Lookahead σ}
    (hs : Ahead (.ok e) s (t :: o :: x)) (h : elementAssignment n s = .ok found s') : Assigns 1 x := by
  let m := max n (8 * (t :: o :: x).length + 2)
  obtain ⟨r, hr, -⟩ := unswayed.near.elementAssignment (Nat.le_max_left ..) s s found s' .refl h
  have hread := elementAssignment_reads (n := m) (Nat.le_max_right ..) s hs
  rw [hr] at hread
  obtain ⟨y, -, hstatement, array, index, value, rfl⟩ := hread
  cases hstatement with
  | assignElement _ _ hi hc hq _ =>
    obtain ⟨w, rfl, hw⟩ := hi.balanced
    exact (hw.assigns_iff (e := e) hc).mpr ⟨_, .token (by simp [hq]), hq⟩

/-- The search for the bracket that closes an index agrees with the parse. Whatever is read as an
    expression is balanced in square brackets. If an expression can be read behind the opening
    bracket of an element, up to a closing bracket, then the search has some brackets open up to
    that bracket and none behind it, takes nothing, and finds an equals sign if and only if one
    comes next. So a statement that either choice can read is read, and the same is left. -/
theorem scan_agrees {t o : Token} {x : List Token} (hs : Ahead (.ok e) s (t :: o :: x)) (ht : t.kind = .name)
    (ho : o.kind = .openBracket) :
    (∀ last n (r r' : Lookahead σ) z found, Ahead last r z → expression? n r = .ok found r' →
      ∃ w y, z = w ++ y ∧ Ahead last r' y ∧ Balanced w) ∧
    (∀ n i s' c y, (do skip 2; expression? n : Reading σ (Option Expr)) s = .ok (some i) s' →
      Ahead (.ok e) s' (c :: y) → c.kind = .closeBracket → ∃ w, x = w ++ c :: y ∧ Balanced w ∧
        (∀ k ≤ w.length, ∃ d, 0 < d ∧ d + closed (w.take k) = 1 + opened (w.take k) ∧ Scanned e s (t :: o :: x) k d) ∧
        Scanned e s (t :: o :: x) (w.length + 1) 0 ∧
        ∀ m, x.length + 2 ≤ m → ∃ r s'', assignsElement m 2 1 s = .ok r s'' ∧ Filled s s'' ∧
          Ahead (.ok e) s'' (t :: o :: x) ∧ (r = true ↔ ∃ u, Next (.ok e) y u ∧ u.kind = .assign)) ∧
    (∀ n m found s', elementAssignment n s = .ok found s' → n ≤ m → x.length + 2 ≤ m →
      ∃ s'', statement? (m + 1) s = .ok (some found) s'' ∧ Filled s' s'') ∧
    ∀ n m i s' y, expression? n s = .ok (some i) s' → Ahead (.ok e) s' y → Ended y → n ≤ m → x.length + 2 ≤ m →
      ∃ s'', statement? (m + 1) s = .ok (some (.expression i)) s'' ∧ Filled s' s'' := by
  refine ⟨fun last n r r' z found hr hread => ?_, fun n i s' c y hread hs' hc => ?_,
    fun n m found s' hread hn hm => ?_, fun n m i s' y hread hs' hy hn hm => ?_⟩
  · obtain ⟨y, hy, hfound⟩ := expression?_derives hr hread
    cases found with
    | none => exact ⟨[], y, hfound.symm, hy, .nil⟩
    | some i =>
      obtain ⟨w, hz, hw⟩ := Expression.balanced hfound
      exact ⟨w, y, hz, hy, hw⟩
  · obtain ⟨w, rfl, hw⟩ := (index_derives hs hread hs').balanced
    obtain ⟨hbefore, hbehind⟩ := balanced_scanned hs hw hc
    refine ⟨w, rfl, hw, hbefore, hbehind, fun m hm => ?_⟩
    obtain ⟨r, s'', hscan, hfilled, hs'', hr⟩ := assignsElement_returns hs hm
    exact ⟨r, s'', hscan, hfilled, hs'', hr.trans (hw.assigns_iff hc)⟩
  · obtain ⟨r, s'', hscan, -, -, hr⟩ := assignsElement_returns hs hm
    obtain rfl : r = true := hr.mpr (elementAssignment_assigns hs hread)
    have hchoice : choice true n s = .ok (some found) s' := by
      simp only [choice, if_true, Bind.bind, EStateM.bind, hread]
      rfl
    exact statement?_choice hs ht ho hscan hchoice hn
  · obtain ⟨r, s'', hscan, -, -, hr⟩ := assignsElement_returns hs hm
    obtain ⟨z, hz, hi⟩ := expression?_derives hs hread
    obtain rfl := hz.unique hs'
    have hends : ∀ u, Next (.ok e) z u → u.kind ≠ .assign ∧ u.kind ≠ .openBracket := hy.not_assigns
    have hno : ¬ Assigns 1 x := (Expression.not_assigns hi ht hends).2 o x rfl ho
    obtain rfl : r = false := Bool.eq_false_iff.mpr fun h => hno (hr.mp h)
    have hchoice : choice false n s = .ok (some (.expression i)) s' := by
      simp only [choice, Bool.false_eq_true, if_false, Bind.bind, EStateM.bind, hread]
      rfl
    exact statement?_choice hs ht ho hscan hchoice hn

/-- The tokens of `a[b[c]] = d`. -/
def nestedElement : List Token :=
  [⟨.name, "a"⟩, ⟨.openBracket, "["⟩, ⟨.name, "b"⟩, ⟨.openBracket, "["⟩, ⟨.name, "c"⟩, ⟨.closeBracket, "]"⟩,
   ⟨.closeBracket, "]"⟩, ⟨.assign, "="⟩, ⟨.name, "d"⟩]

/-- The search goes over the index of the index, to the second closing bracket. -/
theorem scan_agrees_nested : ∃ w, nestedElement.drop 2 = w ++ nestedElement.drop 6 ∧ Balanced w ∧
    Scanned Token.endOfText (ofSource (Replay.ofItems (nestedElement.map .ok))) nestedElement (w.length + 1) 0 ∧
    ∃ s', statement? 12 (ofSource (Replay.ofItems (nestedElement.map .ok))) =
      .ok (some (.assignElement "a" (.element "b" (.var "c")) (.var "d"))) s' := by
  have hkinds : ∀ t ∈ nestedElement, t.kind ≠ .endOfText := by decide
  have hs : Ahead (.ok Token.endOfText) (ofSource (Replay.ofItems (nestedElement.map .ok))) nestedElement :=
    .pending rfl hkinds (Replay.gives_tokens rfl hkinds)
  obtain ⟨-, hindex, hassignment, -⟩ := scan_agrees hs rfl rfl
  have hends : Ahead (.ok Token.endOfText) (⟨⟨nestedElement.map .ok, (nestedElement.drop 7).map .ok⟩,
      [⟨.closeBracket, "]"⟩]⟩ : Lookahead Replay) (nestedElement.drop 6) :=
    .pending rfl (by decide) (Replay.gives_tokens rfl (by decide))
  obtain ⟨w, hw, hbalanced, -, hscanned, -⟩ := hindex 9 (.element "b" (.var "c")) _ _ _ rfl hends rfl
  obtain ⟨s', hread, -⟩ := hassignment 11 11 (.assignElement "a" (.element "b" (.var "c")) (.var "d"))
    _ rfl (Nat.le_refl _) (by decide)
  exact ⟨w, hw, hbalanced, hscanned, s', hread⟩

end ScriptLang
