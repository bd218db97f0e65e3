/-
  ScriptLang.Proofs.Grammar.Precedence — expressions are read as their precedence trees.

  The root of a chain of operators is one of the lowest rank: the last of that rank below
  rank 8, and the first at rank 8 (`^`). What stands on either side of it is a chain again.
  - `precedenceTree`: the tree that is built in this way, by places in the chain.
  - `grouped_precedenceTree`: it is the tree, and by `Grouped.unique` the only one, that the grammar
    gives the chain.
  - `expression_precedence`: a chain of atoms is read as its precedence tree and nothing past it
    is taken, if no operator comes next and, after a name, no opening bracket.
-/

import ScriptLang.Proofs.Grammar.Completeness
import ScriptLang.Proofs.Grammar.Foresight
import ScriptLang.Proofs.Grammar.Soundness

namespace ScriptLang

open Grammar
open Token (Kind)

/-! ## The tree of a chain -/

/-- The lowest rank of a chain's operators. -/
def lowest (ops : List Link) : Nat := (ops.map fun o => o.1.precedence).foldr min 8

def isLowest (ops : List Link) (o : Link) : Bool := o.1.precedence == lowest ops

/-- Where the root of a chain stands. -/
def rootAt (ops : List Link) : Nat :=
  if lowest ops < 8 then ops.length - 1 - ops.reverse.findIdx (isLowest ops)
  else ops.findIdx (isLowest ops)

/-- The operand `a` and the operators after it, split at the root. -/
def precedenceTree (a : Expr) (ops : List Link) : Expr :=
  match _found : ops.drop (rootAt ops) with
  | [] => a
  | (op, b) :: after => .binary op (precedenceTree a (ops.take (rootAt ops))) (precedenceTree b after)
termination_by ops.length
decreasing_by
  all_goals
    have hl := congrArg List.length _found
    rw [List.length_drop, List.length_cons] at hl
  · rw [List.length_take]
    omega
  · omega

/-! ## The root -/

variable {ops : List Link}

theorem lowest_le {o : Link} (ho : o ∈ ops) : lowest ops ≤ o.1.precedence := by
  induction ops with
  | nil => cases ho
  | cons u ops ih =>
    simp only [lowest, List.map_cons, List.foldr_cons] at ih ⊢
    rcases List.mem_cons.mp ho with rfl | ho
    · exact Nat.min_le_left ..
    · exact Nat.le_trans (Nat.min_le_right ..) (ih ho)

theorem lowest_le_beside {before after : List Link} {o : Link} (h : ops = before ++ o :: after) :
    (∀ u ∈ before, lowest ops ≤ u.1.precedence) ∧ ∀ u ∈ after, lowest ops ≤ u.1.precedence := by
  subst h
  exact ⟨fun u hu => lowest_le (List.mem_append_left _ hu),
    fun u hu => lowest_le (List.mem_append_right _ (List.mem_cons_of_mem _ hu))⟩

theorem exists_lowest (h : ops ≠ []) : ∃ o ∈ ops, isLowest ops o = true := by
  induction ops with
  | nil => exact absurd rfl h
  | cons u ops ih =>
    by_cases hu : u.1.precedence ≤ lowest ops
    · refine ⟨u, List.mem_cons_self .., beq_iff_eq.mpr (Nat.min_eq_left hu).symm⟩
    · have hlow : lowest (u :: ops) = lowest ops := Nat.min_eq_right (Nat.le_of_not_le hu)
      obtain ⟨o, ho, hp⟩ := ih fun he => by
        subst he
        exact hu u.1.precedence_le
      exact ⟨o, List.mem_cons_of_mem _ ho, by rw [isLowest, hlow]; exact hp⟩

/-- A chain is split before its first link of a sort, and its place is counted. -/
theorem findIdx_split {l : List Link} {p : Link → Bool} (h : ∃ o ∈ l, p o = true) :
    ∃ before o after, l = before ++ o :: after ∧ p o = true ∧ (∀ u ∈ before, p u = false) ∧ l.findIdx p = before.length := by
  obtain ⟨o, ho⟩ := Option.isSome_iff_exists.mp (List.find?_isSome.mpr h)
  obtain ⟨hp, before, after, rfl, hbefore⟩ := List.find?_eq_some_iff_append.mp ho
  have hnot : ∀ u ∈ before, p u = false := fun u hu => by simpa using hbefore u hu
  refine ⟨before, o, after, rfl, hp, hnot, ?_⟩
  clear h ho hbefore
  induction before with
  | nil => simp [List.findIdx_cons, hp]
  | cons u before ih =>
    obtain ⟨hu, hbefore⟩ := List.forall_mem_cons.mp hnot
    simp [List.findIdx_cons, hu, ih hbefore]

/-- The root binds no tighter than what stands left of it, and less tightly than what stands
    right of it, or as tightly at rank 8. -/
theorem rootAt_spec (h : ops ≠ []) : ∃ before o after, ops = before ++ o :: after ∧ rootAt ops = before.length ∧
    (∀ u ∈ before, fitsLeft o.1.precedence u.1.precedence) ∧ ∀ u ∈ after, fitsRight o.1.precedence u.1.precedence := by
  have hlow := exists_lowest h
  by_cases h8 : lowest ops < 8
  · obtain ⟨after, o, before, hsplit, ho, hafter, hidx⟩ := findIdx_split (l := ops.reverse) (by simpa using hlow)
    have hops : ops = before.reverse ++ o :: after.reverse := by
      rw [← List.reverse_inj, hsplit]
      simp
    obtain ⟨hleft, hright⟩ := lowest_le_beside hops
    have ho : o.1.precedence = lowest ops := beq_iff_eq.mp ho
    refine ⟨_, _, _, hops, ?_, fun u hu => ?_, fun u hu => ?_⟩
    · rw [rootAt, if_pos h8, hidx]
      have hl := congrArg List.length hops
      simp only [List.length_append, List.length_reverse, List.length_cons] at hl ⊢
      omega
    · have := hleft u hu
      unfold fitsLeft
      omega
    · have := hright u hu
      have hne : u.1.precedence ≠ lowest ops := by simpa [isLowest] using hafter u (List.mem_reverse.mp hu)
      unfold fitsRight
      omega
  · obtain ⟨before, o, after, hops, ho, hbefore, hidx⟩ := findIdx_split hlow
    have ho : o.1.precedence = lowest ops := beq_iff_eq.mp ho
    obtain ⟨hleft, hright⟩ := lowest_le_beside hops
    refine ⟨_, _, _, hops, by rw [rootAt, if_neg h8, hidx], fun u hu => ?_, fun u hu => ?_⟩
    · have := hleft u hu
      have hne : u.1.precedence ≠ lowest ops := by simpa [isLowest] using hbefore u hu
      unfold fitsLeft
      omega
    · have := hright u hu
      have := u.1.precedence_le
      unfold fitsRight
      omega

theorem precedenceTree_nil (a : Expr) : precedenceTree a [] = a := by
  rw [precedenceTree]
  split
  · rfl
  · rename_i found
    rw [List.drop_nil] at found
    cases found

theorem precedenceTree_root {a b : Expr} {op : BinaryOp} {before after : List Link}
    (h : rootAt (before ++ (op, b) :: after) = before.length) : precedenceTree a (before ++ (op, b) :: after) =
      .binary op (precedenceTree a before) (precedenceTree b after) := by
  rw [precedenceTree]
  split
  · rename_i found
    rw [h, List.drop_left] at found
    cases found
  · rename_i op' b' after' found
    rw [h, List.drop_left] at found
    cases found
    rw [h, List.take_left]

/-- The precedence tree of a chain is the one that the grammar gives it. -/
theorem grouped_precedenceTree (a : Expr) (ops : List Link) : Grouped a ops (precedenceTree a ops) := by
  induction hn : ops.length using Nat.strongRecOn generalizing a ops with
  | ind n ih =>
    subst hn
    by_cases hne : ops = []
    · rw [hne, precedenceTree_nil]
      exact .operand
    · obtain ⟨before, ⟨op, b⟩, after, hops, hroot, hbefore, hafter⟩ := rootAt_spec hne
      rw [hops] at hroot ⊢
      rw [precedenceTree_root hroot]
      have hl := congrArg List.length hops
      rw [List.length_append, List.length_cons] at hl
      exact .split (ih _ (by omega) a before rfl) (ih _ (by omega) b after rfl) hbefore hafter

/-! ## Chains of one rank -/

/-- Every operator takes all that stands left of it. -/
def groupLeft (a : Expr) (ops : List Link) : Expr := ops.foldl (fun left o => .binary o.1 left o.2) a

/-- Every operator takes all that stands right of it. -/
def groupRight : Expr → List Link → Expr
  | a, [] => a
  | a, (op, b) :: ops => .binary op a (groupRight b ops)

theorem grouped_groupLeft {p : Nat} (hp : p < 8) (a : Expr) (h : ∀ o ∈ ops, o.1.precedence = p) :
    Grouped a ops (groupLeft a ops) := by
  induction ops generalizing a with
  | nil => exact .operand
  | cons o ops ih =>
    obtain ⟨ho, hops⟩ := List.forall_mem_cons.mp h
    refine Grouped.extend .operand nofun (ih (.binary o.1 a o.2) hops) fun u hu => ?_
    rw [hops u (List.mem_of_mem_head? hu), ho]
    exact .inr ⟨rfl, hp⟩

theorem grouped_groupRight (a : Expr) (h : ∀ o ∈ ops, o.1.precedence = 8) : Grouped a ops (groupRight a ops) := by
  induction ops generalizing a with
  | nil => exact .operand
  | cons o ops ih =>
    obtain ⟨ho, hops⟩ := List.forall_mem_cons.mp h
    refine (Grouped.split .operand (ih o.2 hops) nofun fun u hu => ?_ : Grouped a ([] ++ (o.1, o.2) :: ops) _)
    rw [hops u hu, ho]
    exact .inr ⟨rfl, rfl⟩

/-! ## Reading -/

section

variable {σ α : Type} [TokenStream σ] {last : Except Fault Token} {x y z : List Token} {t : Token} {a e : Expr}

/-- The tokens are read as the expression and `z` is left of them, at any depth that suffices. -/
def ReadAs (σ : Type) [TokenStream σ] (last : Except Fault Token) (x : List Token) (e : Expr) (z : List Token) : Prop :=
  ∀ n (s : Lookahead σ), 8 * x.length + 2 ≤ n → Ahead last s x →
    ∃ s', expression? n s = .ok (some e) s' ∧ Ahead last s' z

/-- What is read unless it is too deep, and is not too deep, is read. -/
theorem Grammar.Returns.succeeds {m : Reading σ α} {r : α} {e : Token} {Q : α → List Token → Prop} {s : Lookahead σ}
    (h : Returns (.ok e) m x r y) (hdeep : Reads (.ok e) m x Q Deep) (hs : Ahead (.ok e) s x) :
    ∃ s', m s = .ok r s' ∧ Ahead (.ok e) s' y := by
  have hr := h s hs
  have hd := hdeep s hs
  revert hr hd
  cases m s with
  | ok r' s' =>
    intro hr _
    obtain ⟨_, hs', rfl, rfl⟩ := hr
    exact ⟨s', rfl, hs'⟩
  | error f s' =>
    intro hr hd
    rcases hr with hl | ⟨_, _, hf⟩
    · cases hl
    · rcases hd with hl | ⟨_, _, hne⟩
      · cases hl
      · exact absurd hf hne

theorem Grammar.MayEnd.of_next (ht : Next last z t) (hop : t.kind.isBinaryOperator = false)
    (hname : ∀ u, u :: z <:+ x → u.kind = .name → t.kind ≠ .openParen ∧ t.kind ≠ .openBracket) : MayEnd last x z where
  still u hu := by
    rw [hu.unique ht]
    exact Option.not_isSome_iff_eq_none.mp (Bool.eq_false_iff.mp hop)
  settled v hv hk u hu := by
    rw [hu.unique ht]
    exact hname v hv hk

theorem Grammar.Expression.readAs (h : Expression x e z) (ht : Next last z t) (hop : t.kind.isBinaryOperator = false)
    (hname : ∀ u, u :: z <:+ x → u.kind = .name → t.kind ≠ .openParen ∧ t.kind ≠ .openBracket) : ReadAs σ last x e z := by
  intro n s hn hs
  cases ht with
  | final hl hk =>
    subst hl
    have hend : MayEnd (.ok t) x [] := .of_next (.final rfl hk) hop hname
    exact (h.read_mayEnd hend n).succeeds ((expressionReaders n).expression hn) hs
  | @token _ z hk =>
    -- However the source ends, it is read as a source that has only end tokens after these.
    have hend : MayEnd (.ok Token.endOfText) x (t :: z) := .of_next (.token hk) hop hname
    have hx : x ≠ [] := fun he => by
      have := h.length_lt
      simp [he] at this
    exact (foresees.readers (Nat.le_refl n)).expression.reads hs hx fun r hr =>
      (h.read_mayEnd hend n).succeeds ((expressionReaders n).expression hn) hr

/-- Atoms with operators between them are read as their precedence tree, and just these tokens
    are taken. Below rank 8 operators of one rank group to the left, at rank 8 to the right. A
    unary operator in front belongs to the first operand alone. -/
theorem expression_precedence (ha : Atom x a y) (hc : Chain y ops z) (ht : Next last z t)
    (hop : t.kind.isBinaryOperator = false)
    (hname : ∀ u, u :: z <:+ x → u.kind = .name → t.kind ≠ .openParen ∧ t.kind ≠ .openBracket) :
    ReadAs σ last x (precedenceTree a ops) z ∧
    (∀ p < 8, (∀ o ∈ ops, o.1.precedence = p) → precedenceTree a ops = groupLeft a ops) ∧
    ((∀ o ∈ ops, o.1.precedence = 8) → precedenceTree a ops = groupRight a ops) ∧
    ∀ u op, UnaryOp.ofKind? u.kind = some op → ReadAs σ last (u :: x) (precedenceTree (.unary op a) ops) z := by
  have htree (a : Expr) := grouped_precedenceTree a ops
  refine ⟨?_, fun p hp h => ?_, fun h => ?_, fun u op hu => ?_⟩
  · exact (Expression.chain ha hc (htree a)).readAs ht hop hname
  · exact (htree a).unique (grouped_groupLeft hp a h)
  · exact (htree a).unique (grouped_groupRight a h)
  · refine (Expression.chain (.unary hu ha) hc (htree _)).readAs ht hop fun v hv => hname v ?_
    refine (List.suffix_cons_iff.mp hv).resolve_left fun he => ?_
    have := ha.length_lt
    have := hc.length_le
    rw [(List.cons.inj he).2] at this
    omega

end

/-- The operators of `a - b ^ c ^ d`, in front of a line break. -/
theorem expression_precedence_powers : ∃ s', expression? 66 (Lookahead.ofSource (Replay.ofItems ([⟨.name, "a"⟩, ⟨.minus, "-"⟩,
      ⟨.name, "b"⟩, ⟨.caret, "^"⟩, ⟨.name, "c"⟩, ⟨.caret, "^"⟩, ⟨.name, "d"⟩, ⟨.newline, "\n"⟩].map .ok))) =
    .ok (some (.binary .subtract (.var "a") (.binary .exponent (.var "b") (.binary .exponent (.var "c") (.var "d"))))) s' := by
  generalize hx : [(⟨.name, "a"⟩ : Token), ⟨.minus, "-"⟩, ⟨.name, "b"⟩, ⟨.caret, "^"⟩, ⟨.name, "c"⟩, ⟨.caret, "^"⟩,
    ⟨.name, "d"⟩, ⟨.newline, "\n"⟩] = x
  have named {c : String} (h : isProperName c = true) : Named ⟨.name, c⟩ := ⟨rfl, h⟩
  have ha : Atom x (.var "a") x.tail := by rw [← hx]; exact .var (named (by decide))
  have hc : Chain x.tail [(.subtract, .var "b"), (.exponent, .var "c"), (.exponent, .var "d")] [⟨.newline, "\n"⟩] := by
    rw [← hx]
    exact .cons rfl (.var (named (by decide))) (.cons rfl (.var (named (by decide)))
      (.cons rfl (.var (named (by decide))) .nil))
  have hkinds : ∀ t ∈ x, t.kind ≠ .endOfText := by rw [← hx]; decide
  have hs : Ahead (.ok Token.endOfText) (Lookahead.ofSource (Replay.ofItems (x.map .ok))) x :=
    .pending rfl hkinds (Replay.gives_tokens rfl hkinds)
  have htree : precedenceTree (.var "a") [(.subtract, .var "b"), (.exponent, .var "c"), (.exponent, .var "d")] =
      .binary .subtract (.var "a") (.binary .exponent (.var "b") (.binary .exponent (.var "c") (.var "d"))) := by
    have hpowers := (grouped_precedenceTree (.var "b") [(.exponent, .var "c"), (.exponent, .var "d")]).unique
      (grouped_groupRight _ (by simp [BinaryOp.precedence]))
    refine Eq.trans (@precedenceTree_root _ _ _ [] [(.exponent, .var "c"), (.exponent, .var "d")] (by decide)) ?_
    rw [precedenceTree_nil, hpowers]
    rfl
  obtain ⟨hread, -⟩ := expression_precedence (σ := Replay) ha hc (.token (by decide)) rfl fun _ _ _ => by decide
  rw [htree] at hread
  obtain ⟨s', hs', -⟩ := hread 66 _ (by rw [← hx]; decide) hs
  exact ⟨s', hs'⟩

end ScriptLang
