/-
  ScriptLang.Proofs.Grammar.Automaton — the grammar, read one token at a time.

  A stack of frames says what may come next; the top frame is first. A token makes the top
  frame give way to other frames, or is passed to the frame below, or is refused. No frame
  looks at a second token: where a reader looks ahead, for `else` after layout or for an
  equals sign after an index, a frame keeps both ways open until the token comes. What a
  token says beyond its kind is looked at in a literal only.
  - `feeds_finish` / `Nested.feeds`: from every stack that is reached the end can be reached, by
    the tokens of `finish`.
-/

import ScriptLang.Proofs.Grammar.Derivation

namespace ScriptLang.Grammar

open Token (Kind)

inductive Frame where
  /-- Statements, up to what ends a scope. -/
  | scope
  /-- What must follow a statement. -/
  | ended
  /-- A token of one kind. -/
  | mark (k : Kind)
  | name
  | atom
  /-- What makes more of a name than a variable. -/
  | suffix
  /-- Operators, each with an atom after it. -/
  | tail
  /-- More arguments, or their end. -/
  | argsTail
  /-- More parameters, or their end. -/
  | paramsTail
  /-- What a declaration sets its name to. -/
  | initial
  /-- The value after `return`, or none. -/
  | returnTail
  /-- What follows a name at the start of a statement. -/
  | nameHead
  /-- What follows an element at the start of a statement. -/
  | elementTail
  /-- What follows the block of an `if`: an `else`, or the end of the statement. -/
  | afterThen
  /-- The same, after layout has ended the statement. -/
  | maybeElse
  deriving DecidableEq

/-- What a frame on top does at a token. -/
inductive Move where
  /-- These frames take its place. -/
  | push (frames : List Frame)
  /-- It goes, and the token is for the frame below. -/
  | pass
  | refuse

/-- A block, and then `after`. -/
abbrev braced (after : List Frame) : List Frame := .mark .openBrace :: .scope :: .mark .closeBrace :: after

/-! ## Moves -/

/-- At the start of an atom that has `after` after it. -/
def Move.atom (t : Token) (after : List Frame) : Move :=
  if t.kind = .openParen then .push (.atom :: .tail :: .mark .closeParen :: after)
  else if (UnaryOp.ofKind? t.kind).isSome then .push (.atom :: after)
  else if t.kind = .name then .push (.suffix :: after)
  else match literalOf t with
    | .ok (some _) => .push after
    | _ => .refuse

/-- At the start of a statement. -/
def Move.statement (t : Token) : Move :=
  match t.kind with
  | .letWord => .push [.name, .mark .assign, .initial, .ended, .scope]
  | .ifWord => .push (.atom :: .tail :: braced [.afterThen, .scope])
  | .whileWord => .push (.atom :: .tail :: braced [.ended, .scope])
  | .defWord => .push (.name :: .mark .openParen :: .name :: .paramsTail :: braced [.ended, .scope])
  | .returnWord => .push [.returnTail, .ended, .scope]
  | .openBrace => .push [.scope, .mark .closeBrace, .ended, .scope]
  | .name => .push [.nameHead, .ended, .scope]
  | _ => .atom t [.tail, .ended, .scope]

namespace Frame

def act : Frame → Token → Move
  | scope, t =>
    if t.kind = .endOfText ∨ t.kind.closesScope then .pass
    else if t.kind.isSeparator then .push [scope]
    else .statement t
  | ended, t => if t.kind.isSeparator then .push [] else if t.kind = .endOfText then .pass else .refuse
  | mark k, t => if t.kind = k then .push [] else .refuse
  | name, t => if t.kind = .name then .push [] else .refuse
  | atom, t => .atom t []
  | suffix, t =>
    if t.kind = .openParen then .push [atom, tail, argsTail]
    else if t.kind = .openBracket then .push [atom, tail, mark .closeBracket]
    else .pass
  | tail, t => if t.kind.isBinaryOperator then .push [atom, tail] else .pass
  | argsTail, t =>
    if t.kind = .closeParen then .push []
    else if t.kind = .comma then .push [atom, tail, argsTail]
    else .refuse
  | paramsTail, t =>
    if t.kind = .closeParen then .push []
    else if t.kind = .comma then .push [name, paramsTail]
    else .refuse
  | initial, t => if t.kind = .openBracket then .push [atom, tail, mark .closeBracket] else .atom t [tail]
  | returnTail, t => if t.kind.endsStatement then .pass else .atom t [tail]
  | nameHead, t =>
    if t.kind = .assign then .push [atom, tail]
    else if t.kind = .openBracket then .push [atom, tail, mark .closeBracket, elementTail]
    else if t.kind = .openParen then .push [atom, tail, argsTail, tail]
    else if t.kind.isBinaryOperator then .push [atom, tail]
    else .pass
  | elementTail, t => if t.kind = .assign ∨ t.kind.isBinaryOperator then .push [atom, tail] else .pass
  | afterThen, t =>
    if t.kind = .newline ∨ t.kind = .comment then .push [maybeElse]
    else if t.kind = .elseWord then .push (braced [ended])
    else if t.kind = .semicolon then .push []
    else if t.kind = .endOfText then .pass
    else .refuse
  | maybeElse, t =>
    if t.kind = .newline ∨ t.kind = .comment then .push [maybeElse]
    else if t.kind = .elseWord then .push (braced [ended])
    else .pass

end Frame

/-- One token; no stack is left where it is refused. -/
def feed : List Frame → Token → Option (List Frame)
  | [], t => if t.kind = .endOfText then some [] else none
  | f :: K, t =>
    match f.act t with
    | .push P => some (P ++ K)
    | .pass => feed K t
    | .refuse => none

def feeds (c : List Frame) (w : List Token) : Option (List Frame) := w.foldlM feed c

section

variable {f : Frame} {c c' K P : List Frame} {t : Token} {w : List Token}

theorem feed_push (h : f.act t = .push P) : feed (f :: K) t = some (P ++ K) := by simp only [feed, h]

theorem feed_pass (h : f.act t = .pass) : feed (f :: K) t = feed K t := by simp only [feed, h]

theorem feed_congr {g : Frame} (h : f.act t = g.act t) : feed (f :: K) t = feed (g :: K) t := by rw [feed, feed, h]

theorem act_mark {k : Kind} (h : t.kind = k) : (Frame.mark k).act t = .push [] := if_pos h

theorem act_mark_ne {k : Kind} (h : t.kind ≠ k) : (Frame.mark k).act t = .refuse := if_neg h

/-- A token that starts no other atom is a literal, or is refused. -/
theorem act_atom (hp : t.kind ≠ .openParen) (hu : UnaryOp.ofKind? t.kind = none) (hn : t.kind ≠ .name) :
    (∀ v, literalOf t = .ok (some v) → Frame.atom.act t = .push []) ∧
      ((∀ v, literalOf t ≠ .ok (some v)) → Frame.atom.act t = .refuse) := by
  rw [Frame.act, Move.atom, if_neg hp, hu, Option.isSome_none, if_neg Bool.false_ne_true, if_neg hn]
  constructor
  · intro v hv
    rw [hv]
  · intro hv
    split
    · exact absurd ‹_› (hv _)
    · rfl

theorem feed_refuse (h : f.act t = .refuse) : feed (f :: K) t = none := by simp only [feed, h]

theorem feeds_cons : feeds c (t :: w) = (feed c t).bind fun c' => feeds c' w := List.foldlM_cons

theorem feeds_singleton : feeds c [t] = feed c t := by
  rw [feeds_cons]
  cases feed c t <;> rfl

theorem feeds_append {w' : List Token} : feeds c (w ++ w') = (feeds c w).bind fun c' => feeds c' w' :=
  List.foldlM_append

end

section

variable {c c' : List Frame} {t e : Token} {u : List Token}

/-- Nothing comes of tokens one of which is refused. -/
theorem feeds_refused (hu : feeds c u = some c') (ht : feed c' t = none) (v : List Token) :
    feeds c (u ++ t :: v) = none := by
  rw [feeds_append, hu, Option.bind_some, feeds_cons, ht]
  rfl

/-- Of an end token only the kind matters. -/
theorem feed_end (he : e.kind = .endOfText) (c : List Frame) : feed c e = feed c Token.endOfText := by
  obtain ⟨k, text⟩ := e
  obtain rfl : k = .endOfText := he
  have hact (f : Frame) : f.act ⟨.endOfText, text⟩ = f.act Token.endOfText := by cases f <;> rfl
  induction c with
  | nil => rfl
  | cons f K ih => rw [feed, feed, hact, ih]

theorem feeds_end (he : e.kind = .endOfText) : feeds c (u ++ [e]) = feeds c (u ++ [Token.endOfText]) := by
  rw [feeds_append, feeds_append]
  simp only [feeds_singleton, feed_end he]

end

/-! ## Reaching the end -/

namespace Frame

/-- Tokens at which a frame gives way to nothing. -/
def close : Frame → List Token
  | scope | suffix | tail | returnTail | nameHead | elementTail | maybeElse => []
  | ended | afterThen => [⟨.semicolon, ";"⟩]
  | mark k => [⟨k, ""⟩]
  | name => [⟨.name, "x"⟩]
  | atom | initial => [⟨.trueWord, "true"⟩]
  | argsTail | paramsTail => [⟨.closeParen, ")"⟩]

/-- The end of an expression: no operator, and nothing that makes more of a name. -/
def calm (k : Kind) : Bool := !k.isBinaryOperator && k != .openParen && k != .openBracket && k != .assign

/-- Whether a frame lets go before a token of kind `k`, which closes what is below it. -/
def allows : Frame → Kind → Bool
  | scope, k | afterThen, k | maybeElse, k => k == .endOfText || k.closesScope
  | mark m, _ => !m.isBinaryOperator && m != .name && m != .endOfText
  | atom, k | suffix, k | tail, k | initial, k | nameHead, k | elementTail, k => calm k
  | returnTail, k => k.endsStatement
  | ended, _ | name, _ | argsTail, _ | paramsTail, _ => true

end Frame

/-- Tokens that close every frame. -/
def finish (c : List Frame) : List Token := c.flatMap Frame.close

/-- The kind of the first of the tokens that close a stack. -/
def first : List Frame → Kind
  | [] => .endOfText
  | f :: K =>
    match f.close with
    | [] => first K
    | t :: _ => t.kind

/-- Every frame lets go before what closes those below it. -/
def Nested : List Frame → Prop
  | [] => True
  | f :: K => f.allows (first K) = true ∧ Nested K

/-- A token that no reader finds fault with once it is taken. -/
structure Regular (t : Token) : Prop where
  name : t.kind = .name → isProperName t.text = true
  operator : t.kind.isBinaryOperator = true → BinaryOp.ofKind? t.kind ≠ none

section

variable {f : Frame} {c c' K P : List Frame} {t : Token}

theorem finish_cons : finish (f :: K) = f.close ++ finish K := rfl

/-- A frame that nothing is needed to close passes the first token that closes the others. -/
theorem Frame.act_of_allows (h : f.allows t.kind = true) (hc : f.close = []) : f.act t = .pass := by
  cases f with
  | scope => exact if_pos (by simpa [allows] using h)
  | suffix | tail | nameHead | elementTail =>
    obtain ⟨⟨⟨ho, hp⟩, hb⟩, ha⟩ : ((t.kind.isBinaryOperator = false ∧ t.kind ≠ .openParen) ∧ t.kind ≠ .openBracket) ∧
      t.kind ≠ .assign := by simpa [allows, calm] using h
    simp [act, *]
  | returnTail => exact if_pos h
  | maybeElse =>
    have hk : t.kind = .endOfText ∨ t.kind = .closeBrace := by simpa [allows, Kind.closesScope] using h
    rcases hk with hk | hk <;> simp [act, hk]
  | ended | mark | name | atom | argsTail | paramsTail | initial | afterThen => cases hc

theorem exists_finish (K : List Frame) : ∃ t w, finish K ++ [Token.endOfText] = t :: w ∧ t.kind = first K := by
  induction K with
  | nil => exact ⟨_, _, rfl, rfl⟩
  | cons f K ih =>
    rw [finish_cons, first]
    cases hc : f.close with
    | nil => exact ih
    | cons t w => exact ⟨t, _, rfl, rfl⟩

theorem feeds_pass (h : f.allows (first K) = true) (hc : f.close = []) :
    feeds (f :: K) (finish K ++ [Token.endOfText]) = feeds K (finish K ++ [Token.endOfText]) := by
  obtain ⟨t, w, hw, ht⟩ := exists_finish K
  rw [hw, feeds_cons, feeds_cons, feed_pass (Frame.act_of_allows (ht ▸ h) hc)]

theorem feeds_finish (h : Nested c) : feeds c (finish c ++ [Token.endOfText]) = some [] := by
  induction c with
  | nil => rfl
  | cons f K ih =>
    have hf := h.1
    have ih := ih h.2
    rw [finish_cons, List.append_assoc]
    have one {t : Token} (hc : f.close = [t]) (ha : f.act t = .push []) :
        feeds (f :: K) (f.close ++ (finish K ++ [Token.endOfText])) = some [] := by
      rw [hc, List.singleton_append, feeds_cons, feed_push ha]
      exact ih
    cases f with
    | scope | suffix | tail | returnTail | nameHead | elementTail | maybeElse => exact (feeds_pass hf rfl).trans ih
    | ended | afterThen | name | atom | argsTail | paramsTail => exact one rfl rfl
    | mark k => exact one rfl (if_pos rfl)
    | initial =>
      have hp : feeds (Frame.tail :: K) (finish K ++ [Token.endOfText]) = _ := feeds_pass hf rfl
      exact hp.trans ih

theorem Move.nested_atom (h : Move.atom t P = .push c) (hc : Frame.calm (first (P ++ K)) = true) (hn : Nested (P ++ K)) :
    Nested (c ++ K) := by
  unfold Move.atom at h
  split at h
  · cases h
    exact ⟨rfl, rfl, rfl, hn⟩
  split at h
  · cases h
    exact ⟨hc, hn⟩
  split at h
  · cases h
    exact ⟨hc, hn⟩
  split at h
  · cases h
    exact hn
  · cases h

theorem Move.nested_statement (h : Move.statement t = .push P) (hf : Frame.scope.allows (first K) = true) (hn : Nested K) :
    Nested (P ++ K) := by
  unfold Move.statement at h
  split at h
  · cases h; exact ⟨rfl, rfl, rfl, rfl, hf, hn⟩
  · cases h; exact ⟨rfl, rfl, rfl, rfl, rfl, hf, hf, hn⟩
  · cases h; exact ⟨rfl, rfl, rfl, rfl, rfl, rfl, hf, hn⟩
  · cases h; exact ⟨rfl, rfl, rfl, rfl, rfl, rfl, rfl, rfl, hf, hn⟩
  · cases h; exact ⟨rfl, rfl, hf, hn⟩
  · cases h; exact ⟨rfl, rfl, rfl, hf, hn⟩
  · cases h; exact ⟨rfl, rfl, hf, hn⟩
  · exact nested_atom h rfl ⟨rfl, rfl, hf, hn⟩

theorem Frame.calm_of_endsStatement {k : Kind} (h : k.endsStatement = true) : calm k = true := by
  revert h
  cases k <;> decide

/-- What takes the place of a frame closes before the frames below it do. -/
theorem Frame.nested_push (h : f.act t = .push P) (hf : f.allows (first K) = true) (hn : Nested K) : Nested (P ++ K) := by
  cases f with
  | scope =>
    rw [act] at h
    split at h
    · cases h
    split at h
    · cases h; exact ⟨hf, hn⟩
    · exact Move.nested_statement h hf hn
  | atom => exact Move.nested_atom h hf hn
  | ended | mark | name =>
    rw [act] at h
    repeat' split at h
    all_goals cases h
    exact hn
  | suffix =>
    rw [act] at h
    split at h
    · cases h; exact ⟨rfl, rfl, rfl, hn⟩
    split at h <;> cases h
    exact ⟨rfl, rfl, rfl, hn⟩
  | tail =>
    rw [act] at h
    split at h <;> cases h
    exact ⟨hf, hf, hn⟩
  | argsTail =>
    rw [act] at h
    split at h
    · cases h; exact hn
    split at h <;> cases h
    exact ⟨rfl, rfl, rfl, hn⟩
  | paramsTail =>
    rw [act] at h
    split at h
    · cases h; exact hn
    split at h <;> cases h
    exact ⟨rfl, rfl, hn⟩
  | initial =>
    rw [act] at h
    split at h
    · cases h; exact ⟨rfl, rfl, rfl, hn⟩
    · exact Move.nested_atom h hf ⟨hf, hn⟩
  | returnTail =>
    have hc := calm_of_endsStatement hf
    rw [act] at h
    split at h
    · cases h
    · exact Move.nested_atom h hc ⟨hc, hn⟩
  | nameHead =>
    rw [act] at h
    split at h
    · cases h; exact ⟨hf, hf, hn⟩
    split at h
    · cases h; exact ⟨rfl, rfl, rfl, hf, hn⟩
    split at h
    · cases h; exact ⟨rfl, rfl, rfl, hf, hn⟩
    split at h <;> cases h
    exact ⟨hf, hf, hn⟩
  | elementTail =>
    rw [act] at h
    split at h <;> cases h
    exact ⟨hf, hf, hn⟩
  | afterThen =>
    rw [act] at h
    split at h
    · cases h; exact ⟨hf, hn⟩
    split at h
    · cases h; exact ⟨rfl, rfl, rfl, rfl, hn⟩
    split at h
    · cases h; exact hn
    split at h <;> cases h
  | maybeElse =>
    rw [act] at h
    split at h
    · cases h; exact ⟨hf, hn⟩
    split at h <;> cases h
    exact ⟨rfl, rfl, rfl, rfl, hn⟩

/-- Only nested stacks are reached before the end. -/
theorem Nested.feed (h : Nested c) (hk : t.kind ≠ .endOfText) (hf : feed c t = some c') : Nested c' := by
  induction c with
  | nil => rw [Grammar.feed, if_neg hk] at hf; cases hf
  | cons f K ih =>
    cases ha : f.act t with
    | push P =>
      rw [feed_push ha] at hf
      cases hf
      exact Frame.nested_push ha h.1 h.2
    | pass => exact ih h.2 (feed_pass ha ▸ hf)
    | refuse => rw [feed_refuse ha] at hf; cases hf

theorem Nested.feeds {w : List Token} (h : Nested c) (hw : ∀ t ∈ w, t.kind ≠ .endOfText) (hf : feeds c w = some c') :
    Nested c' := by
  induction w generalizing c with
  | nil => cases hf; exact h
  | cons t w ih =>
    rw [feeds_cons] at hf
    obtain ⟨d, hd, hf⟩ := Option.bind_eq_some_iff.mp hf
    rw [List.forall_mem_cons] at hw
    exact ih (h.feed hw.1 hd) hw.2 hf

/-- The tokens that close a stack are sound ones, and none ends the text. -/
theorem Nested.finish_regular (h : Nested c) : ∀ t ∈ finish c, Regular t ∧ t.kind ≠ .endOfText := by
  induction c with
  | nil => exact nofun
  | cons f K ih =>
    rw [finish_cons]
    refine List.forall_mem_append.mpr ⟨?_, ih h.2⟩
    have hf := h.1
    cases f with
    | scope | suffix | tail | returnTail | nameHead | elementTail | maybeElse => exact nofun
    | ended | afterThen | atom | initial | argsTail | paramsTail =>
      exact List.forall_mem_singleton.mpr ⟨⟨nofun, nofun⟩, nofun⟩
    | name => exact List.forall_mem_singleton.mpr ⟨⟨fun _ => by decide, nofun⟩, nofun⟩
    | mark k =>
      obtain ⟨⟨ho, hn⟩, he⟩ : (k.isBinaryOperator = false ∧ k ≠ .name) ∧ k ≠ .endOfText := by
        simpa [Frame.allows] using hf
      exact List.forall_mem_singleton.mpr ⟨⟨fun hk => absurd hk hn, fun hk => by rw [ho] at hk; cases hk⟩, he⟩

end

end ScriptLang.Grammar
