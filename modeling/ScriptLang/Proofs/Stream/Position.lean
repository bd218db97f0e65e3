/-
  ScriptLang.Proofs.Stream.Position — a lookahead is a position in what its source gives.

  `Logged` keeps the items that a source has given since it was last at its start. A `Session`
  is a lookahead in such a source with the tokens that were taken from it. `Op` are the
  operations, which come in any order, while the source may fail at any pull.
  - `Op.run_eq`: an operation looks at one token, answers about it and may take it.
  - `peek_pulls`: what looking pulls, and what is kept where the source fails.
  - `Op.run_unlogged`: the log changes nothing.
  - `Session.step_lawful` / `Session.run_lawful`: the tokens pulled are those taken and then those
    buffered, after one operation and after any number of them; `Lawful` has what else holds.
-/

import ScriptLang.Stream.Lookahead

namespace ScriptLang

open Token (Kind)

/-- A source with the items that it has given since it was at its start. -/
structure Logged (σ : Type) where
  inner : σ
  given : List (Except Fault Token)

namespace Logged

variable {σ : Type}

def ofSource (inner : σ) : Logged σ := ⟨inner, []⟩

variable [TokenStream σ]

def next (l : Logged σ) : Except Fault Token × Logged σ :=
  let (item, inner) := TokenStream.pull l.inner
  (item, ⟨inner, l.given ++ [item]⟩)

def rewind (l : Logged σ) : Logged σ := ofSource (TokenStream.rewind l.inner)

theorem gives_iff {l : Logged σ} {w : List Token} {r : Except Fault Token} :
    Gives next l w r ↔ Gives TokenStream.pull l.inner w r := Gives.inner_iff inner fun _ => rfl

end Logged

instance {σ : Type} [TokenStream σ] : TokenStream (Logged σ) where
  pull := Logged.next
  rewind := Logged.rewind
  bound l := TokenStream.bound l.inner
  length_le_bound h := TokenStream.length_le_bound (Logged.gives_iff.mp h)

/-! ## Operations -/

inductive Op where
  | peek (n : Nat)
  | peekKind (n : Nat)
  | take
  | takeIf (kind : Kind)
  | expect (kind : Kind) (wanted : Expectation)
  | rewind
  deriving DecidableEq

inductive Answer where
  | token (t : Token)
  | kind (k : Kind)
  | yes
  | no
  | done

/-- The lookahead without its next token. -/
def Lookahead.rest {σ : Type} (s : Lookahead σ) : Lookahead σ := ⟨s.source, s.buffer.tail⟩

namespace Op

variable {σ : Type} [TokenStream σ]

def run : Op → Reading σ Answer
  | peek n => return .token (← Lookahead.peek n)
  | peekKind n => return .kind (← Lookahead.peekKind n)
  | take => return .token (← Lookahead.take)
  | takeIf kind => return if ← Lookahead.takeIf kind then .yes else .no
  | expect kind wanted => return .token (← Lookahead.expect kind wanted)
  | rewind => do
    Lookahead.rewind
    return .done

/-- Whether the operation is about the next token, and may take it. -/
def mayTake : Op → Bool
  | take | takeIf _ | expect .. => true
  | peek _ | peekKind _ | rewind => false

/-- The tokens that were taken from `s` for this answer. Where it does not say which, it was the
    next one. -/
def taken (s : Lookahead σ) : Op → Answer → List Token
  | take, .token t | expect .., .token t => [t]
  | takeIf _, .yes =>
    match Lookahead.peek 0 s with
    | .ok t _ => [t]
    | .error .. => []
  | _, _ => []

/-- How far ahead the token is that the operation is about. -/
def offset : Op → Nat
  | peek n | peekKind n => n
  | _ => 0

/-- What follows once that token has been looked at. -/
def finish (t : Token) (s : Lookahead σ) : Op → EStateM.Result Fault (Lookahead σ) Answer
  | peek _ => .ok (.token t) s
  | peekKind _ => .ok (.kind t.kind) s
  | take => .ok (.token t) s.rest
  | takeIf kind => if t.kind = kind then .ok .yes s.rest else .ok .no s
  | expect kind wanted => if t.kind = kind then .ok (.token t) s.rest else .error (.unexpected wanted t) s
  | rewind => .ok .done s

end Op

namespace Lookahead

variable {σ : Type} [TokenStream σ]

theorem take_of_buffer {s : Lookahead σ} {t : Token} (h : s.buffer[0]? = some t) : take s = .ok t s.rest := by
  obtain ⟨source, buffer⟩ := s
  cases buffer with
  | nil => cases h
  | cons u buffer => cases h; rfl

theorem take_eq (s : Lookahead σ) : take s = match peek 0 s with
    | .ok t s' => .ok t s'.rest
    | .error f s' => .error f s' := by
  obtain ⟨source, buffer⟩ := s
  cases buffer with
  | cons t buffer => rw [peek_of_lt (Nat.zero_lt_succ _)]; rfl
  | nil =>
    rw [take_nil, peek_eq]
    simp only [fill, pull, Bind.bind, EStateM.bind, List.length_nil]
    rcases TokenStream.pull source with ⟨f | t, a⟩ <;> rfl

theorem takeIf_eq (k : Kind) (s : Lookahead σ) : takeIf k s = match peek 0 s with
    | .ok t s' => if t.kind = k then .ok true s'.rest else .ok false s'
    | .error f s' => .error f s' := by
  simp only [takeIf, peekKind, Bind.bind, EStateM.bind, Pure.pure]
  cases hp : peek 0 s with
  | error f s' => rfl
  | ok t s' =>
    simp only [EStateM.pure]
    by_cases hk : t.kind = k
    · simp only [if_pos hk, EStateM.bind, take_of_buffer (peek_buffer hp).1, EStateM.pure]
    · simp only [if_neg hk, EStateM.pure]

theorem expect_eq (k : Kind) (w : Expectation) (s : Lookahead σ) : expect k w s = match peek 0 s with
    | .ok t s' => if t.kind = k then .ok t s'.rest else .error (.unexpected w t) s'
    | .error f s' => .error f s' := by
  simp only [expect, peekKind, Bind.bind, EStateM.bind, Pure.pure]
  cases hp : peek 0 s with
  | error f s' => rfl
  | ok t s' =>
    obtain ⟨hlt, ht⟩ := List.getElem?_eq_some_iff.mp (peek_buffer hp).1
    simp only [EStateM.pure]
    by_cases hk : t.kind = k
    · simp only [if_pos hk, take_of_buffer (peek_buffer hp).1]
    · simp only [if_neg hk, fail, Bind.bind, EStateM.bind, peek_of_lt hlt, ht]
      rfl

end Lookahead

/-- Every operation but a rewind looks at one token, and is over if the source fails before it. -/
theorem Op.run_eq {σ : Type} [TokenStream σ] {op : Op} (h : op ≠ .rewind) (s : Lookahead σ) :
    op.run s = match Lookahead.peek op.offset s with
      | .ok t s' => op.finish t s'
      | .error f s' => .error f s' := by
  cases op with
  | rewind => exact absurd rfl h
  | peek n =>
    simp only [run, Bind.bind, EStateM.bind, offset, finish]
    cases Lookahead.peek n s <;> rfl
  | peekKind n =>
    simp only [run, Lookahead.peekKind, Bind.bind, EStateM.bind, offset, finish]
    cases Lookahead.peek n s <;> rfl
  | take =>
    simp only [run, Bind.bind, EStateM.bind, Lookahead.take_eq, offset, finish]
    cases Lookahead.peek 0 s <;> rfl
  | takeIf kind =>
    simp only [run, Bind.bind, EStateM.bind, Lookahead.takeIf_eq, offset, finish]
    cases Lookahead.peek 0 s with
    | error f s' => rfl
    | ok t s' =>
      by_cases hk : t.kind = kind
      · simp only [if_pos hk]
        rfl
      · simp only [if_neg hk]
        rfl
  | expect kind wanted =>
    simp only [run, Bind.bind, EStateM.bind, Lookahead.expect_eq, offset, finish]
    cases Lookahead.peek 0 s with
    | error f s' => rfl
    | ok t s' =>
      by_cases hk : t.kind = kind
      · simp only [if_pos hk]
        rfl
      · simp only [if_neg hk]

/-! ## Pulling -/

section

variable {σ : Type}

/-- The tokens `w` were pulled into the buffer, and no other items but those of `failure`. -/
structure Pulls (s s' : Lookahead (Logged σ)) (w : List Token) (failure : List (Except Fault Token)) : Prop where
  buffer : s'.buffer = s.buffer ++ w
  given : s'.source.given = s.source.given ++ (w.map .ok ++ failure)

theorem Pulls.cons {s s₁ s' : Lookahead (Logged σ)} {t : Token} {w : List Token} {failure : List (Except Fault Token)}
    (h : Pulls s s₁ [t] []) (h' : Pulls s₁ s' w failure) : Pulls s s' (t :: w) failure where
  buffer := by rw [h'.buffer, h.buffer, List.append_assoc, List.singleton_append]
  given := by rw [h'.given, h.given, List.append_assoc]; rfl

variable [TokenStream σ]

/-- Where the source fails, what was pulled before is kept. -/
theorem fill_pulls (n : Nat) (s : Lookahead (Logged σ)) : match Lookahead.fill n s with
    | .ok _ s' => ∃ w, Pulls s s' w [] ∧ w.length = n
    | .error f s' => ∃ w, Pulls s s' w [.error f] ∧ w.length < n := by
  induction n generalizing s with
  | zero => exact ⟨[], ⟨(List.append_nil _).symm, (List.append_nil _).symm⟩, rfl⟩
  | succ n ih =>
    obtain ⟨item, a, hp⟩ : ∃ item a, TokenStream.pull s.source = (item, ⟨a, s.source.given ++ [item]⟩) :=
      ⟨_, _, rfl⟩
    cases item with
    | error f =>
      rw [Lookahead.fill_succ, Lookahead.pull_error hp]
      exact ⟨[], ⟨(List.append_nil _).symm, rfl⟩, Nat.zero_lt_succ n⟩
    | ok t =>
      obtain ⟨s₁, hone, hfill⟩ : ∃ s₁, Pulls s s₁ [t] [] ∧ Lookahead.fill (n + 1) s = Lookahead.fill n s₁ :=
        ⟨⟨⟨a, s.source.given ++ [.ok t]⟩, s.buffer ++ [t]⟩, ⟨rfl, rfl⟩, by
          rw [Lookahead.fill_succ, Lookahead.pull_ok hp]⟩
      have hrest := ih s₁
      rw [hfill]
      revert hrest
      cases Lookahead.fill n s₁ with
      | ok u s' =>
        intro hrest
        obtain ⟨w, hw, hn⟩ := hrest
        exact ⟨t :: w, hone.cons hw, congrArg (· + 1) hn⟩
      | error f s' =>
        intro hrest
        obtain ⟨w, hw, hn⟩ := hrest
        exact ⟨t :: w, hone.cons hw, Nat.succ_lt_succ hn⟩

theorem peek_pulls (n : Nat) (s : Lookahead (Logged σ)) : match Lookahead.peek n s with
    | .ok t s' => s'.buffer[n]? = some t ∧ ∃ w, Pulls s s' w [] ∧ w.length = n + 1 - s.buffer.length
    | .error f s' => ∃ w, Pulls s s' w [.error f] ∧ w.length < n + 1 - s.buffer.length := by
  have hfill := fill_pulls (n + 1 - s.buffer.length) s
  cases hp : Lookahead.peek n s with
  | ok t s' =>
    refine ⟨(Lookahead.peek_buffer hp).1, ?_⟩
    rw [Lookahead.peek_eq] at hp
    revert hfill hp
    cases Lookahead.fill (n + 1 - s.buffer.length) s with
    | ok u s₁ => exact fun hfill hp => by cases hp; exact hfill
    | error f s₁ => exact fun _ hp => by cases hp
  | error f s' =>
    rw [Lookahead.peek_eq] at hp
    revert hfill hp
    cases Lookahead.fill (n + 1 - s.buffer.length) s with
    | ok u s₁ => exact fun _ hp => by cases hp
    | error g s₁ => exact fun hfill hp => by cases hp; exact hfill

end

/-! ## The log left out -/

namespace Lookahead

variable {σ : Type}

def unlogged (s : Lookahead (Logged σ)) : Lookahead σ := ⟨s.source.inner, s.buffer⟩

variable [TokenStream σ]

theorem fill_unlogged (n : Nat) (s : Lookahead (Logged σ)) : fill n s.unlogged = match fill n s with
    | .ok u s' => .ok u s'.unlogged
    | .error f s' => .error f s'.unlogged := by
  induction n generalizing s with
  | zero => rfl
  | succ n ih =>
    obtain ⟨item, a, hp⟩ : ∃ item a, TokenStream.pull s.source.inner = (item, a) := ⟨_, _, rfl⟩
    have hlogged : TokenStream.pull s.source = (item, ⟨a, s.source.given ++ [item]⟩) := by
      show Logged.next s.source = _
      simp only [Logged.next, hp]
    have hinner : TokenStream.pull s.unlogged.source = (item, a) := hp
    cases item with
    | error f =>
      rw [fill_succ, fill_succ, pull_error hinner, pull_error hlogged]
      rfl
    | ok t =>
      rw [fill_succ, fill_succ, pull_ok hinner, pull_ok hlogged]
      exact ih ⟨⟨a, s.source.given ++ [.ok t]⟩, s.buffer ++ [t]⟩

theorem peek_unlogged (n : Nat) (s : Lookahead (Logged σ)) : peek n s.unlogged = match peek n s with
    | .ok t s' => .ok t s'.unlogged
    | .error f s' => .error f s'.unlogged := by
  have hfill := fill_unlogged (n + 1 - s.buffer.length) s
  rw [peek_eq, peek_eq, show s.unlogged.buffer = s.buffer from rfl, hfill]
  cases fill (n + 1 - s.buffer.length) s <;> rfl

end Lookahead

/-- An operation is the same with the log and without it. -/
theorem Op.run_unlogged {σ : Type} [TokenStream σ] (op : Op) (s : Lookahead (Logged σ)) : op.run s.unlogged =
    match op.run s with
    | .ok a s' => .ok a s'.unlogged
    | .error f s' => .error f s'.unlogged := by
  by_cases hop : op = .rewind
  · subst hop
    rfl
  rw [run_eq hop, run_eq hop, Lookahead.peek_unlogged]
  cases Lookahead.peek op.offset s with
  | error f s' => rfl
  | ok t s' =>
    show op.finish t s'.unlogged = match op.finish t s' with
      | .ok a s' => .ok a s'.unlogged
      | .error f s' => .error f s'.unlogged
    cases op with
    | takeIf k => simp only [finish]; split <;> rfl
    | expect k w => simp only [finish]; split <;> rfl
    | _ => rfl

/-! ## Sessions -/

/-- A lookahead in a logged source, and the tokens taken from it since it was at its start. -/
structure Session (σ : Type) where
  ahead : Lookahead (Logged σ)
  taken : List Token

namespace Session

variable {σ : Type}

def ofSource (source : σ) : Session σ := ⟨Lookahead.ofSource (Logged.ofSource source), []⟩

/-- The items pulled, tokens and faults. -/
def given (s : Session σ) : List (Except Fault Token) := s.ahead.source.given

/-- The tokens pulled, in the order in which they were. -/
def tokens (s : Session σ) : List Token := s.given.filterMap Except.toOption

def buffer (s : Session σ) : List Token := s.ahead.buffer

variable [TokenStream σ]

/-- One operation, and a note of what it took. -/
def step (s : Session σ) (op : Op) : Except Fault Answer × Session σ :=
  match op.run s.ahead with
  | .ok a ahead => (.ok a, ⟨ahead, if op = .rewind then [] else s.taken ++ op.taken s.ahead a⟩)
  | .error f ahead => (.error f, ⟨ahead, s.taken⟩)

def run (s : Session σ) (ops : List Op) : Session σ := ops.foldl (fun s op => (s.step op).2) s

end Session

/-! ## What an operation does -/

section

variable {σ : Type}

/-- What a success answers, takes and pulls. -/
def Answered (s s' : Session σ) (a : Answer) : Op → Prop
  | .peek n => (∃ t, s'.tokens[s.taken.length + n]? = some t ∧ a = .token t) ∧ s'.taken = s.taken ∧
      s'.given.length = s.given.length + (n + 1 - s.buffer.length)
  | .peekKind n => (∃ t, s'.tokens[s.taken.length + n]? = some t ∧ a = .kind t.kind) ∧ s'.taken = s.taken ∧
      s'.given.length = s.given.length + (n + 1 - s.buffer.length)
  | .take => ∃ t, a = .token t ∧ s'.taken = s.taken ++ [t]
  | .takeIf k => ∃ t, s'.tokens[s.taken.length]? = some t ∧
      if t.kind = k then a = .yes ∧ s'.taken = s.taken ++ [t] else a = .no ∧ s'.taken = s.taken
  | .expect k _ => ∃ t, t.kind = k ∧ a = .token t ∧ s'.taken = s.taken ++ [t]
  | .rewind => s'.given = [] ∧ s'.taken = []

/-- A fault is the last item pulled, or it is about the next token, which is not of the kind
    expected. What was buffered stays, and so do the tokens pulled before the fault. -/
def Failed (s s' : Session σ) (f : Fault) (op : Op) : Prop :=
  s'.taken = s.taken ∧ ∃ w, s'.buffer = s.buffer ++ w ∧
    (s'.given = s.given ++ (w.map .ok ++ [.error f]) ∨
      s'.given = s.given ++ w.map .ok ∧ ∃ k wanted t, op = .expect k wanted ∧ t.kind ≠ k ∧
        s'.tokens[s.taken.length]? = some t ∧ f = .unexpected wanted t)

structure Lawful (s : Session σ) (op : Op) (r : Except Fault Answer) (s' : Session σ) : Prop where
  /-- No token pulled is lost, doubled or out of order. -/
  conserved : s'.tokens = s'.taken ++ s'.buffer
  grown : op ≠ .rewind → s.given <+: s'.given
  answered : ∀ a, r = .ok a → Answered s s' a op
  failed : ∀ f, r = .error f → Failed s s' f op
  /-- Whether it succeeds or not. -/
  pulls : op.mayTake = true → s'.given.length = s.given.length + if s.buffer = [] then 1 else 0
  next : op = .take → ∀ t, s.tokens[s.taken.length]? = some t → r = .ok (.token t) ∧ s'.given = s.given

end

namespace Op

/-- An operation that may take a token looks no further than the next one. -/
theorem offset_of_mayTake {op : Op} (h : op.mayTake = true) : op.offset = 0 := by
  cases op <;> first | rfl | cases h

end Op

namespace Session

variable {σ : Type} {s : Session σ} {s₁ : Lookahead (Logged σ)} {op : Op} {t : Token} {w : List Token}
  {failure : List (Except Fault Token)}

/-- The token `n` places after those taken is the one `n` places ahead. -/
theorem getElem?_tokens (h : s.tokens = s.taken ++ s.buffer) (n : Nat) : s.tokens[s.taken.length + n]? = s.buffer[n]? := by
  rw [h, List.getElem?_append_right (Nat.le_add_right ..), Nat.add_sub_cancel_left]

theorem tokens_of_pulls (h : s.tokens = s.taken ++ s.buffer) (hw : Pulls s.ahead s₁ w failure)
    (hf : failure.filterMap Except.toOption = []) (c : List Token) : tokens ⟨s₁, c⟩ = s.taken ++ s₁.buffer := by
  have hok : (w.map Except.ok).filterMap (Except.toOption (ε := Fault)) = w := by
    rw [List.filterMap_map]
    exact List.filterMap_some
  have ht : tokens ⟨s₁, c⟩ = s.tokens ++ w := by
    show s₁.source.given.filterMap Except.toOption = _
    rw [hw.given, List.filterMap_append, List.filterMap_append, hok, hf, List.append_nil]
    rfl
  rw [ht, h, hw.buffer, List.append_assoc]
  rfl

theorem getElem?_of_pulls (h : s.tokens = s.taken ++ s.buffer) (hw : Pulls s.ahead s₁ w []) (n : Nat) (c : List Token) :
    (tokens ⟨s₁, c⟩)[s.taken.length + n]? = s₁.buffer[n]? := by
  rw [tokens_of_pulls h hw rfl, List.getElem?_append_right (Nat.le_add_right ..), Nat.add_sub_cancel_left]

theorem given_length_of_pulls (hw : Pulls s.ahead s₁ w failure) (c : List Token) :
    (given ⟨s₁, c⟩).length = s.given.length + (w.length + failure.length) := by
  show s₁.source.given.length = _
  rw [hw.given, List.length_append, List.length_append, List.length_map]
  rfl

theorem one_sub_length (b : List Token) : 0 + 1 - b.length = if b = [] then 1 else 0 := by
  cases b with
  | nil => rfl
  | cons t b => simp

/-- The source fails before the token is reached. -/
theorem lawful_error {f : Fault} (h : s.tokens = s.taken ++ s.buffer) (hw : Pulls s.ahead s₁ w [.error f])
    (hn : w.length < op.offset + 1 - s.buffer.length) : Lawful s op (.error f) ⟨s₁, s.taken⟩ where
  conserved := tokens_of_pulls h hw rfl _
  grown _ := ⟨_, hw.given.symm⟩
  answered _ ha := nomatch ha
  failed g hg := by
    cases hg
    exact ⟨rfl, w, hw.buffer, .inl hw.given⟩
  pulls hm := by
    rw [Op.offset_of_mayTake hm] at hn
    rw [given_length_of_pulls hw, ← one_sub_length]
    simp only [List.length_singleton]
    omega
  next hop t ht := by
    have hlt := (List.getElem?_eq_some_iff.mp ((getElem?_tokens h 0).symm.trans ht)).1
    subst hop
    simp only [Op.offset] at hn
    omega

/-- The token stays where it is. -/
theorem lawful_kept {r : Except Fault Answer} (h : s.tokens = s.taken ++ s.buffer) (hw : Pulls s.ahead s₁ w [])
    (hn : w.length = op.offset + 1 - s.buffer.length) (hop : op ≠ .take)
    (answered : ∀ a, r = .ok a → Answered s ⟨s₁, s.taken⟩ a op)
    (failed : ∀ f, r = .error f → Failed s ⟨s₁, s.taken⟩ f op) : Lawful s op r ⟨s₁, s.taken⟩ where
  conserved := tokens_of_pulls h hw rfl _
  grown _ := ⟨_, hw.given.symm⟩
  answered := answered
  failed := failed
  pulls hm := by
    rw [Op.offset_of_mayTake hm] at hn
    rw [given_length_of_pulls hw, ← one_sub_length, ← hn]
    rfl
  next he := absurd he hop

/-- The token is taken. -/
theorem lawful_removed {a : Answer} (h : s.tokens = s.taken ++ s.buffer) (hw : Pulls s.ahead s₁ w [])
    (hn : w.length = 0 + 1 - s.buffer.length) (ht : s₁.buffer[0]? = some t)
    (answered : Answered s ⟨s₁.rest, s.taken ++ [t]⟩ a op) (htake : op = .take → a = .token t) :
    Lawful s op (.ok a) ⟨s₁.rest, s.taken ++ [t]⟩ where
  conserved := by
    show tokens ⟨s₁, s.taken⟩ = _
    rw [tokens_of_pulls h hw rfl, List.append_assoc]
    congr 1
    obtain ⟨source, buffer⟩ := s₁
    cases buffer with
    | nil => cases ht
    | cons u buffer => cases ht; rfl
  grown _ := ⟨_, hw.given.symm⟩
  answered b hb := by
    cases hb
    exact answered
  failed _ hf := nomatch hf
  pulls _ := by
    show (given ⟨s₁, s.taken⟩).length = _
    rw [given_length_of_pulls hw, ← one_sub_length, ← hn]
    rfl
  next he u hu := by
    have hb : s.buffer[0]? = some u := (getElem?_tokens h 0).symm.trans hu
    have hlt := (List.getElem?_eq_some_iff.mp hb).1
    -- A token was buffered already, so none was pulled.
    obtain rfl : w = [] := List.length_eq_zero_iff.mp (by omega)
    have hbuffer : s₁.buffer = s.buffer := hw.buffer.trans (List.append_nil _)
    rw [hbuffer, hb] at ht
    cases ht
    exact ⟨by rw [htake he], hw.given.trans (List.append_nil _)⟩

variable [TokenStream σ]

theorem rewind_lawful (s : Session σ) : Lawful s .rewind (s.step .rewind).1 (s.step .rewind).2 where
  conserved := rfl
  grown hne := absurd rfl hne
  answered _ _ := ⟨rfl, rfl⟩
  failed _ hf := nomatch hf
  pulls hm := nomatch hm
  next he := nomatch he

theorem step_lawful (h : s.tokens = s.taken ++ s.buffer) (op : Op) : Lawful s op (s.step op).1 (s.step op).2 := by
  by_cases hop : op = .rewind
  · exact hop ▸ rewind_lawful s
  have hrun := Op.run_eq hop s.ahead
  have hpeek := peek_pulls op.offset s.ahead
  cases hp : Lookahead.peek op.offset s.ahead with
  | error f s₁ =>
    rw [hp] at hrun hpeek
    obtain ⟨w, hw, hn⟩ := hpeek
    simp only [step, hrun]
    exact lawful_error h hw hn
  | ok t s₁ =>
    rw [hp] at hrun hpeek
    obtain ⟨ht, w, hw, hn⟩ := hpeek
    have hat := getElem?_of_pulls h hw op.offset
    -- The token is there and in its place; what is left is whether this operation takes it.
    cases op with
    | rewind => exact absurd rfl hop
    | peek n =>
      simp only [step, hrun, Op.finish, Op.taken, List.append_nil, reduceCtorEq, if_false]
      refine lawful_kept h hw hn nofun (fun a ha => ?_) fun _ hf => nomatch hf
      cases ha
      exact ⟨⟨t, (hat _).trans ht, rfl⟩, rfl, by rw [given_length_of_pulls hw, hn]; rfl⟩
    | peekKind n =>
      simp only [step, hrun, Op.finish, Op.taken, List.append_nil, reduceCtorEq, if_false]
      refine lawful_kept h hw hn nofun (fun a ha => ?_) fun _ hf => nomatch hf
      cases ha
      exact ⟨⟨t, (hat _).trans ht, rfl⟩, rfl, by rw [given_length_of_pulls hw, hn]; rfl⟩
    | take =>
      simp only [step, hrun, Op.finish, Op.taken, reduceCtorEq, if_false]
      exact lawful_removed h hw hn ht ⟨t, rfl, rfl⟩ fun _ => rfl
    | takeIf k =>
      by_cases hk : t.kind = k
      · have hnext : (Op.takeIf k).taken s.ahead .yes = [t] := by
          simp only [Op.taken, show Lookahead.peek 0 s.ahead = .ok t s₁ from hp]
        simp only [step, hrun, Op.finish, if_pos hk, hnext, reduceCtorEq, if_false]
        refine lawful_removed h hw hn ht ⟨t, (hat (s.taken ++ [t])).trans ht, ?_⟩ fun he => nomatch he
        rw [if_pos hk]
        exact ⟨rfl, rfl⟩
      · simp only [step, hrun, Op.finish, if_neg hk, Op.taken, List.append_nil, reduceCtorEq, if_false]
        refine lawful_kept h hw hn nofun (fun a ha => ?_) fun _ hf => nomatch hf
        cases ha
        exact ⟨t, (hat _).trans ht, by rw [if_neg hk]; exact ⟨rfl, rfl⟩⟩
    | expect k wanted =>
      by_cases hk : t.kind = k
      · simp only [step, hrun, Op.finish, if_pos hk, Op.taken, reduceCtorEq, if_false]
        exact lawful_removed h hw hn ht ⟨t, hk, rfl, rfl⟩ fun he => nomatch he
      · simp only [step, hrun, Op.finish, if_neg hk]
        refine lawful_kept h hw hn nofun (fun _ ha => nomatch ha) fun f hf => ?_
        cases hf
        refine ⟨rfl, w, hw.buffer, .inr ⟨?_, k, wanted, t, rfl, hk, (hat _).trans ht, rfl⟩⟩
        exact hw.given.trans (by rw [List.append_nil]; rfl)

theorem run_conserved {s : Session σ} (h : s.tokens = s.taken ++ s.buffer) (ops : List Op) :
    (s.run ops).tokens = (s.run ops).taken ++ (s.run ops).buffer := by
  induction ops generalizing s with
  | nil => exact h
  | cons op ops ih => exact ih (step_lawful h op).conserved

/-- Whatever operations there were before, each one leaves the tokens pulled since the start as
    those taken, in the order in which they were, and after them those buffered. Without the log
    it answers the same, and leaves the same. -/
theorem run_lawful (source : σ) (ops : List Op) (op : Op) :
    let s := (ofSource source).run ops
    Lawful s op (s.step op).1 (s.step op).2 ∧ op.run s.ahead.unlogged =
      match (s.step op).1 with
      | .ok a => .ok a (s.step op).2.ahead.unlogged
      | .error f => .error f (s.step op).2.ahead.unlogged := by
  intro s
  refine ⟨step_lawful (run_conserved rfl ops) op, ?_⟩
  rw [Op.run_unlogged, step]
  cases op.run s.ahead <;> rfl

end Session

end ScriptLang
