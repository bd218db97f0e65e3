/-
  ScriptLang.Stream.Lookahead — looking ahead in a source of tokens.

  A lookahead pulls from its source only when an operation asks for a token beyond those it
  has buffered; buffered tokens are handed out in the order in which they were pulled. A
  fault of the source leaves the buffer as it is, with every token pulled before the fault.
  `Reading` is the monad of operations on a lookahead that may fail; a failure keeps the
  state reached.
  - `peek_of_lt` / `take_cons`: a token that is buffered costs no pull.
  - `peek_buffer`: a token looked at is buffered, and all before it are.
-/

import ScriptLang.Stream.Basic

namespace ScriptLang

structure Lookahead (σ : Type) where
  source : σ
  /-- The tokens pulled and not yet taken, first one first. -/
  buffer : List Token

abbrev Reading (σ : Type) := EStateM Fault (Lookahead σ)

namespace Lookahead

open Token (Kind)

variable {σ : Type}

def ofSource (source : σ) : Lookahead σ := ⟨source, []⟩

variable [TokenStream σ]

/-- One item from the source, past the buffer. -/
def pull : Reading σ Token := fun s =>
  match TokenStream.pull s.source with
  | (.ok t, source) => .ok t { s with source }
  | (.error f, source) => .error f { s with source }

/-- Adds `n` tokens to the buffer. -/
def fill : Nat → Reading σ Unit
  | 0 => pure ()
  | n + 1 => do
    let t ← pull
    modify fun s => { s with buffer := s.buffer ++ [t] }
    fill n

/-- The token `n` places ahead, which stays; the next one is 0 places ahead. -/
def peek (n : Nat) : Reading σ Token := do
  fill (n + 1 - (← get).buffer.length)
  return (← get).buffer.getD n Token.endOfText

def peekKind (n : Nat) : Reading σ Kind := do return (← peek n).kind

/-- Removes the next token. -/
def take : Reading σ Token := fun s =>
  match s.buffer with
  | t :: buffer => .ok t { s with buffer }
  | [] => pull s

/-- Removes the next `n` tokens. -/
def skip : Nat → Reading σ Unit
  | 0 => pure ()
  | n + 1 => do
    let _ ← take
    skip n

/-- Removes the next token if it is of the given kind, and says whether it was. -/
def takeIf (kind : Kind) : Reading σ Bool := do
  if (← peekKind 0) = kind then
    let _ ← take
    return true
  else return false

/-- Fails at the next token. -/
def fail {α : Type} (wanted : Expectation) : Reading σ α := do throw (.unexpected wanted (← peek 0))

/-- Removes the next token, which must be of the given kind. -/
def expect (kind : Kind) (wanted : Expectation) : Reading σ Token := do
  if (← peekKind 0) = kind then take else fail wanted

/-- The value read, or a fault at the next token where none was. -/
def require {α : Type} (wanted : Expectation) : Option α → Reading σ α
  | some a => pure a
  | none => fail wanted

/-- Takes the source back to its start and forgets what is buffered. -/
def rewind : Reading σ Unit := modify fun s => ⟨TokenStream.rewind s.source, []⟩

/-! ## Buffered tokens -/

theorem peek_of_lt {n : Nat} {s : Lookahead σ} (h : n < s.buffer.length) : peek n s = .ok s.buffer[n] s := by
  have hn : n + 1 - s.buffer.length = 0 := by omega
  show (fill (n + 1 - s.buffer.length) >>= fun _ => _) s = _
  rw [hn]
  show EStateM.Result.ok (s.buffer.getD n Token.endOfText) s = _
  simp [List.getD_eq_getElem?_getD, h]

theorem take_cons (source : σ) (t : Token) (buffer : List Token) : take ⟨source, t :: buffer⟩ = .ok t ⟨source, buffer⟩ := rfl

theorem take_nil (source : σ) : take ⟨source, []⟩ = pull ⟨source, []⟩ := rfl

/-! ## Pulled tokens -/

theorem pull_ok {s : Lookahead σ} {source : σ} {t : Token} (h : TokenStream.pull s.source = (.ok t, source)) :
    pull s = .ok t { s with source } := by simp only [pull, h]

theorem pull_error {s : Lookahead σ} {source : σ} {f : Fault} (h : TokenStream.pull s.source = (.error f, source)) :
    pull s = .error f { s with source } := by simp only [pull, h]

theorem fill_succ (n : Nat) (s : Lookahead σ) : fill (n + 1) s = match pull s with
    | .ok t s' => fill n ⟨s'.source, s'.buffer ++ [t]⟩
    | .error f s' => .error f s' := by
  simp only [fill, Bind.bind, EStateM.bind]
  cases pull s <;> rfl

theorem peek_eq (n : Nat) (s : Lookahead σ) : peek n s = match fill (n + 1 - s.buffer.length) s with
    | .ok _ s' => .ok (s'.buffer.getD n Token.endOfText) s'
    | .error f s' => .error f s' := by
  show (fill (n + 1 - s.buffer.length) >>= fun _ => _) s = _
  simp only [Bind.bind, EStateM.bind]
  cases fill (n + 1 - s.buffer.length) s <;> rfl

/-- With nothing buffered, looking at the next token pulls it. -/
theorem peek_nil {source source' : σ} {t : Token} (h : TokenStream.pull source = (.ok t, source')) :
    peek 0 ⟨source, []⟩ = .ok t ⟨source', [t]⟩ := by
  rw [peek_eq]
  show (match fill 1 (⟨source, []⟩ : Lookahead σ) with
    | .ok _ s' => EStateM.Result.ok (s'.buffer.getD 0 Token.endOfText) s'
    | .error f s' => .error f s') = _
  rw [fill_succ, pull, h]
  rfl

theorem fill_buffer {n : Nat} {s s' : Lookahead σ} {u : Unit} (h : fill n s = .ok u s') :
    ∃ q, s'.buffer = s.buffer ++ q ∧ q.length = n := by
  induction n generalizing s with
  | zero =>
    cases h
    exact ⟨[], (List.append_nil _).symm, rfl⟩
  | succ n ih =>
    rw [fill_succ] at h
    cases hp : TokenStream.pull s.source with
    | mk result a =>
      cases result with
      | error f => rw [pull_error hp] at h; cases h
      | ok t =>
        rw [pull_ok hp] at h
        obtain ⟨q, hq, hn⟩ := ih h
        exact ⟨t :: q, by rw [hq, List.append_assoc, List.singleton_append], by rw [List.length_cons, hn]⟩

/-- Looking at a token adds to the buffer what lies before it, and the token. -/
theorem peek_buffer {n : Nat} {s s' : Lookahead σ} {t : Token} (h : peek n s = .ok t s') :
    s'.buffer[n]? = some t ∧ ∃ q, s'.buffer = s.buffer ++ q ∧ q.length = n + 1 - s.buffer.length := by
  rw [peek_eq] at h
  cases hf : fill (n + 1 - s.buffer.length) s with
  | error f s₁ => rw [hf] at h; cases h
  | ok u s₁ =>
    rw [hf] at h
    cases h
    obtain ⟨q, hq, hn⟩ := fill_buffer hf
    have hlt : n < s'.buffer.length := by rw [hq, List.length_append]; omega
    refine ⟨?_, q, hq, hn⟩
    rw [List.getD_eq_getElem?_getD, List.getElem?_eq_getElem hlt]
    rfl

end Lookahead

end ScriptLang
