/-
  ScriptLang.Stream.Basic — sources of tokens.

  A source gives one item per `pull`, a token or a fault, and keeps giving end tokens once
  it is exhausted. `rewind` takes it back to its start. `Gives pull s w r` says that pulls
  from `s` give the tokens `w` and then `r`, their first end token or fault. `bound` is at
  least the length of `w` for a rewound source; a reader sizes its recursion by it. A source
  that never ends may have any bound.

  Three sources: the lexer of a text; `Replay`, which gives a fixed list of items; and
  `Counted`, which counts the pulls and rewinds that another source receives.
  - `Gives.inner_iff`: a source around another one gives what that one gives.
-/

import ScriptLang.Lexer.Basic

namespace ScriptLang

/-- An end token or a fault. -/
def isFinal : Except Fault Token → Bool
  | .ok t => t.kind == .endOfText
  | .error _ => true

/-- Pulls from a state give these tokens, none of them an end token, and then a final item. -/
inductive Gives {σ : Type} (pull : σ → Except Fault Token × σ) : σ → List Token → Except Fault Token → Prop
  | final {s s' : σ} {r : Except Fault Token} : pull s = (r, s') → isFinal r = true → Gives pull s [] r
  | token {s s' : σ} {t : Token} {w : List Token} {r : Except Fault Token} :
      pull s = (.ok t, s') → t.kind ≠ .endOfText → Gives pull s' w r → Gives pull s (t :: w) r

/-- A source whose pulls are pulls of another one inside of it gives what that one does. -/
theorem Gives.inner_iff {σ τ : Type} {pull : σ → Except Fault Token × σ} {pull' : τ → Except Fault Token × τ}
    (inner : τ → σ) (commutes : ∀ s, pull (inner s) = Prod.map id inner (pull' s)) {s : τ} {w : List Token}
    {r : Except Fault Token} : Gives pull' s w r ↔ Gives pull (inner s) w r := by
  constructor
  · intro h
    induction h with
    | final hp hf => exact .final ((commutes _).trans (congrArg _ hp)) hf
    | token hp hk _ ih => exact .token ((commutes _).trans (congrArg _ hp)) hk ih
  · generalize hs : inner s = s'
    intro h
    induction h generalizing s with
    | final hp hf =>
      obtain ⟨hr, -⟩ := Prod.mk.inj ((commutes s).symm.trans (hs ▸ hp))
      exact .final (Prod.ext hr rfl) hf
    | token hp hk _ ih =>
      obtain ⟨ht, hs'⟩ := Prod.mk.inj ((commutes s).symm.trans (hs ▸ hp))
      exact .token (Prod.ext ht rfl) hk (ih hs')

class TokenStream (σ : Type) where
  pull : σ → Except Fault Token × σ
  rewind : σ → σ
  bound : σ → Nat
  length_le_bound {s : σ} {w : List Token} {r : Except Fault Token} : Gives pull (rewind s) w r → w.length ≤ bound s

/-! ## The lexer of a text -/

namespace Lexer

def pull (l : Lexer) : Except Fault Token × Lexer := (l.next.1.mapError .lexical, l.next.2)

/-- Every token is at least one character of the text that is left. -/
theorem length_le_of_gives {l : Lexer} {w : List Token} {r : Except Fault Token} (h : Gives pull l w r) :
    w.length ≤ l.rest.length := by
  induction h with
  | final => exact Nat.zero_le _
  | @token l l' t w r hp hk _ ih =>
    obtain ⟨found, rfl⟩ := Prod.mk.inj hp
    have hn : l.next.1 ≠ .ok Token.endOfText := by
      intro he
      rw [he] at found
      cases found
      exact hk rfl
    exact Nat.lt_of_le_of_lt ih (next_rest_length_lt hn)

end Lexer

instance : TokenStream Lexer where
  pull := Lexer.pull
  rewind := Lexer.rewind
  bound l := l.source.length
  length_le_bound := Lexer.length_le_of_gives

/-! ## Fixed items -/

structure Replay where
  items : List (Except Fault Token)
  /-- The items not yet given. -/
  rest : List (Except Fault Token)

namespace Replay

def ofItems (items : List (Except Fault Token)) : Replay := ⟨items, items⟩

/-- The next item; end tokens once there is none. -/
def next (r : Replay) : Except Fault Token × Replay :=
  match r.rest with
  | [] => (.ok Token.endOfText, r)
  | item :: rest => (item, { r with rest })

def rewind (r : Replay) : Replay := ofItems r.items

theorem length_le_of_gives {s : Replay} {w : List Token} {r : Except Fault Token} (h : Gives next s w r) :
    w.length ≤ s.rest.length := by
  induction h with
  | final => exact Nat.zero_le _
  | @token s s' t w r hp hk _ ih =>
    unfold next at hp
    split at hp
    · cases hp
      exact absurd rfl hk
    · rename_i item rest hr
      cases hp
      rw [hr]
      exact Nat.succ_le_succ ih

end Replay

instance : TokenStream Replay where
  pull := Replay.next
  rewind := Replay.rewind
  bound r := r.items.length
  length_le_bound := Replay.length_le_of_gives

/-! ## Counting -/

structure Counted (σ : Type) where
  inner : σ
  pulls : Nat
  rewinds : Nat

namespace Counted

variable {σ : Type}

def ofSource (inner : σ) : Counted σ := ⟨inner, 0, 0⟩

variable [TokenStream σ]

/-- A pull counts whether it gives a token or a fault. -/
def next (c : Counted σ) : Except Fault Token × Counted σ :=
  let (result, inner) := TokenStream.pull c.inner
  (result, { c with inner, pulls := c.pulls + 1 })

def rewind (c : Counted σ) : Counted σ := { c with inner := TokenStream.rewind c.inner, rewinds := c.rewinds + 1 }

theorem gives_iff {c : Counted σ} {w : List Token} {r : Except Fault Token} :
    Gives next c w r ↔ Gives TokenStream.pull c.inner w r := Gives.inner_iff inner fun _ => rfl

end Counted

instance {σ : Type} [TokenStream σ] : TokenStream (Counted σ) where
  pull := Counted.next
  rewind := Counted.rewind
  bound c := TokenStream.bound c.inner
  length_le_bound h := TokenStream.length_le_bound (Counted.gives_iff.mp h)

end ScriptLang
