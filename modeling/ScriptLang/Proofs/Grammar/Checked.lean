/-
  ScriptLang.Proofs.Grammar.Checked — readers that check every call against those it is made in.

  `checked` are the readers of the grammar, but that each keeps the calls it is inside of, and
  fails at once, in a fault of its own, at a call that is not `Sound`. A call is inside of the one
  that makes it and of all those around that one. The next round of a loop is a call that the
  round before makes.
  - `Sound`: a call looks at no place past the tokens ahead, fewer tokens lie before it than lay
    before any call of the same reader around it, and its caller `Leads` to it.
  - `Leads`: what each round of a loop has taken, and that a scan takes nothing.

  `Agrees last m m' x`: with `x` ahead, `m` does what `m'` does. It holds of readings in sequence,
  step by step, and of a call that `Fits`, which then does not fail its check.
-/

import ScriptLang.Proofs.Grammar.Levels
import ScriptLang.Proofs.Grammar.Soundness

namespace ScriptLang.Grammar

open Lookahead

/-! ## Calls -/

/-- Which reader is called. -/
inductive Reader
  | expression
  | climb
  | absorb
  | atom
  | reference
  | arguments
  | pastLayout
  | assignsElement
  | parameters
  | scope
  | block
  | statement
  | conditional

namespace Call

variable {α : Type}

def reader : Call α → Reader
  | expression => .expression
  | climb .. => .climb
  | absorb .. => .absorb
  | atom => .atom
  | reference _ => .reference
  | arguments => .arguments
  | pastLayout _ => .pastLayout
  | assignsElement .. => .assignsElement
  | parameters => .parameters
  | scope => .scope
  | block => .block
  | statement => .statement
  | conditional => .conditional

/-- The place ahead from which a call reads: a scan's own, and the next token for all others. -/
def place : Call α → Nat
  | pastLayout place => place
  | assignsElement place _ => place
  | _ => 0

end Call

/-- A call and the state in which it was made. -/
structure Entered (σ : Type) : Type 1 where
  {Result : Type}
  call : Call Result
  state : Lookahead σ

/-- A token that ranks as an operator, of rank `least` or more, whether or not it builds an expression. -/
def Ranks (least : Nat) (t : Token) : Prop := ∃ rank, t.kind.precedence? = some rank ∧ least ≤ rank

/-- How a call with `y` ahead leads to one that it makes with `x` ahead. -/
def Leads {α β : Type} (outer : Call α) (inner : Call β) (y x : List Token) : Prop :=
  match outer, inner with
  -- An operator has been taken, and then an operand.
  | .climb _ least, .atom => ∃ t, y = t :: x ∧ Ranks least t
  | .climb _ least, .absorb .. => ∃ t u a, y = t :: u ∧ Ranks least t ∧ Atom u a x
  -- The operator that was looked at is still there, and will be taken.
  | .absorb .., .climb _ least => x = y ∧ ∃ t u, y = t :: u ∧ Ranks least t
  -- A round has taken an operator and an operand, or several of both.
  | .climb .., .climb .. => ∃ o ops, Chain y (o :: ops) x
  | .absorb .., .absorb .. => ∃ o ops, Chain y (o :: ops) x
  -- A round has taken an argument, a parameter, a separator or a statement.
  | .arguments, .arguments => ∃ e c, Expression y e (c :: x) ∧ c.kind = .comma
  | .parameters, .parameters => ∃ t c, y = t :: c :: x ∧ Named t ∧ c.kind = .comma
  | .scope, .scope => (∃ t, y = t :: x ∧ t.kind.isSeparator = true) ∨ ∃ s, Statement y s x ∧ Ended x
  -- A scan has gone one place on and taken nothing.
  | .pastLayout place, .pastLayout place' => x = y ∧ place' = place + 1
  | .assignsElement place _, .assignsElement place' _ => x = y ∧ place' = place + 1
  | _, _ => True

variable {σ : Type} [TokenStream σ]

/-- A call may be made inside of others, the innermost of them first. -/
structure Sound (last : Except Fault Token) (around : List (Entered σ)) (c : Entered σ) : Prop where
  within : ∃ x, Ahead last c.state x ∧ c.call.place ≤ x.length
  fewer : ∀ d ∈ around, d.call.reader = c.call.reader → ∀ y x, Ahead last d.state y → Ahead last c.state x →
    x.length - c.call.place < y.length - d.call.place
  leads : ∀ d ∈ around.head?, ∀ y x, Ahead last d.state y → Ahead last c.state x → Leads d.call c.call y x

/-! ## Checked readers -/

section

variable (alarm : Fault) (last : Except Fault Token)

open Classical in
/-- Answers a call by `m`, which is told what it is inside of, if the call is sound. -/
noncomputable def enter {α : Type} (around : List (Entered σ)) (call : Call α)
    (m : List (Entered σ) → Reading σ α) : Reading σ α := fun s =>
  if Sound last around ⟨call, s⟩ then m (⟨call, s⟩ :: around) s else .error alarm s

noncomputable def checked : Nat → List (Entered σ) → Readers σ
  | 0, _ => fun _ _ => throw .tooDeep
  | n + 1, around => fun _ call => enter alarm last around call fun around => (checked n around).next call

/-- A program, read by checked readers. -/
noncomputable def checkedProgram (depth : Nat) : Reading σ Scope := do
  rewind
  let root ← checked alarm last depth [] .scope
  let next ← peek 0
  if next.kind = .endOfText then return root else throw (.trailing next)

/-- The program that checked readers give, and the state in which they leave the source. -/
noncomputable def checkedParse (depth : Nat) (s : Lookahead σ) : Except Fault Scope × Lookahead σ :=
  match checkedProgram alarm last depth s with
  | .ok root s' => (.ok root, s')
  | .error fault s' => (.error fault, s')

end

/-! ## Agreement -/

/-- With `x` ahead, two readings do the same. -/
def Agrees {α : Type} (last : Except Fault Token) (m m' : Reading σ α) (x : List Token) : Prop :=
  ∀ s, Ahead last s x → m s = m' s

namespace Agrees

variable {α β : Type} {last : Except Fault Token} {m m' : Reading σ α} {g g' : α → Reading σ β} {x : List Token}

theorem rfl : Agrees last m m x := fun _ _ => Eq.refl _

/-- A step that both take. -/
theorem step (h : Reads last m x (fun a y => Agrees last (g a) (g' a) y) fun _ _ => True) :
    Agrees last (m >>= g) (m >>= g') x := by
  intro s hs
  have hm := h s hs
  simp only [Bind.bind, EStateM.bind]
  revert hm
  cases m s with
  | error f s' => exact fun _ => Eq.refl _
  | ok a s' =>
    intro hm
    rcases hm with ⟨y, hy, hg⟩
    exact hg s' hy

/-- Readings that agree, and the same after them. -/
theorem before (h : Agrees last m m' x) : Agrees last (m >>= g) (m' >>= g) x := by
  intro s hs
  simp only [Bind.bind, EStateM.bind, h s hs]

/-- Readings that agree, and readings after them that agree wherever the first ones end. -/
theorem call {Q : α → List Token → Prop} {E : Fault → List Token → Prop} (h : Agrees last m m' x)
    (hm : Reads last m' x Q E) (hg : ∀ a y, Q a y → Agrees last (g a) (g' a) y) :
    Agrees last (m >>= g) (m' >>= g') x := by
  intro s hs
  rw [h.before s hs]
  exact step (hm.mono hg fun _ _ _ => trivial) s hs

end Agrees

/-! ## Measure -/

/-- What a reader adds to the measure of its calls: a reader that calls another one at the same
    tokens adds more than that one. -/
def Reader.rank : Reader → Nat
  | .scope => 4
  | .statement | .conditional | .arguments => 3
  | .expression | .absorb | .assignsElement => 2
  | .climb | .atom | .reference | .block | .parameters | .pastLayout => 1

theorem Reader.rank_pos (r : Reader) : 1 ≤ r.rank := by cases r <;> decide

theorem Reader.rank_le (r : Reader) : r.rank ≤ 4 := by cases r <;> decide

variable {α : Type} {last : Except Fault Token} {around : List (Entered σ)} {k : Nat}

/-- The measure of a call: every call has a smaller one than the calls it is inside of. -/
def Call.size (c : Call α) (x : List Token) : Nat := 8 * (x.length - c.place) + c.reader.rank

theorem Call.size_pos (c : Call α) (x : List Token) : 0 < c.size x :=
  Nat.lt_of_lt_of_le c.reader.rank_pos (Nat.le_add_left ..)

/-- A call that is about to be made, with a depth of `k`. -/
structure Fits (last : Except Fault Token) (around : List (Entered σ)) (k : Nat) (c : Call α) (x : List Token) :
    Prop where
  place : c.place ≤ x.length
  deep : c.size x ≤ k
  size : ∀ d ∈ around, ∀ y, Ahead last d.state y → c.size x < d.call.size y
  leads : ∀ d ∈ around.head?, ∀ y, Ahead last d.state y → Leads d.call c y x

/-- A call that is being answered, and was made with a depth of `k`. -/
structure Inside (last : Except Fault Token) (around : List (Entered σ)) (k : Nat) (c : Call α) (x : List Token) :
    Prop where
  place : c.place ≤ x.length
  deep : c.size x ≤ k
  size : ∀ d ∈ around, ∀ y, Ahead last d.state y → c.size x ≤ d.call.size y
  entered : ∃ s outer, around = ⟨c, s⟩ :: outer ∧ Ahead last s x

/-- A call that fits is sound, and what answers it is inside of it. -/
theorem Agrees.enter {alarm : Fault} {c : Call α} {m : List (Entered σ) → Reading σ α} {m' : Reading σ α}
    {x : List Token} (h : Fits last around k c x)
    (hm : ∀ around, Inside last around k c x → Agrees last (m around) m' x) :
    Agrees last (enter alarm last around c m) m' x := by
  intro s hs
  have hsound : Sound last around ⟨c, s⟩ := by
    refine ⟨⟨x, hs, h.place⟩, ?_, ?_⟩
    · intro d hd hr y x' hy hx
      obtain rfl := hx.unique hs
      replace hr : d.call.reader = c.reader := hr
      have hsize := h.size d hd y hy
      unfold Call.size at hsize
      rw [hr] at hsize
      show x'.length - c.place < y.length - d.call.place
      omega
    · intro d hd y x' hy hx
      obtain rfl := hx.unique hs
      exact h.leads d hd y hy
  rw [Grammar.enter, if_pos hsound]
  refine hm _ ⟨h.place, h.deep, ?_, s, around, Eq.refl _, hs⟩ s hs
  intro d hd y hy
  rcases List.mem_cons.mp hd with rfl | hd
  · obtain rfl := hs.unique hy
    exact Nat.le_refl _
  · exact Nat.le_of_lt (h.size d hd y hy)

namespace Inside

variable {β : Type} {c : Call α} {c' : Call β} {x x' : List Token} (h : Inside last around (k + 1) c x)

include h

theorem fits (hp : c'.place ≤ x'.length) (hs : c'.size x' < c.size x) (hl : Leads c c' x x') :
    Fits last around k c' x' := by
  refine ⟨hp, by have := h.deep; omega, ?_, ?_⟩
  · intro d hd y hy
    exact Nat.lt_of_lt_of_le hs (h.size d hd y hy)
  · intro d hd y hy
    obtain ⟨s, outer, rfl, hx⟩ := h.entered
    cases hd
    obtain rfl := hx.unique hy
    exact hl

/-- A call after some tokens were taken. -/
theorem shorter (hp : c.place = 0) (hp' : c'.place = 0) (hx : x'.length < x.length) (hl : Leads c c' x x') :
    Fits last around k c' x' := by
  refine h.fits (hp' ▸ Nat.zero_le _) ?_ hl
  have := c'.reader.rank_le
  have := c.reader.rank_pos
  unfold Call.size
  rw [hp, hp']
  omega

/-- A call that reads from a place further ahead. -/
theorem further (hp : c.place < c'.place) (hp' : c'.place ≤ x.length) (hl : Leads c c' x x) :
    Fits last around k c' x := by
  refine h.fits hp' ?_ hl
  have := c'.reader.rank_le
  have := c.reader.rank_pos
  unfold Call.size
  omega

/-- A call of a lesser reader at the same tokens. -/
theorem lesser (hp : c.place = 0) (hp' : c'.place = 0) (hr : c'.reader.rank < c.reader.rank) (hl : Leads c c' x x) :
    Fits last around k c' x := by
  refine h.fits (hp' ▸ Nat.zero_le _) ?_ hl
  unfold Call.size
  rw [hp, hp']
  omega

end Inside

end ScriptLang.Grammar
