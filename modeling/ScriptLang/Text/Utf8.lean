/-
  ScriptLang.Text.Utf8 — reading UTF-8, and where it goes wrong.

  The lead byte of a character fixes the range of every byte still owed (`lead?`), so
  overlong forms, surrogates and code points past U+10FFFF are refused at the first byte
  that rules the text out. A fault says where the broken character starts and, unless
  the text merely ends too early, how many of its bytes were still good (at least one).
-/

namespace ScriptLang.Utf8

inductive Fault where
  /-- `length` bytes from `index` on cannot begin any character. -/
  | invalid (length index : Nat)
  /-- The text ends inside the character that starts at `index`. -/
  | incomplete (index : Nat)
  deriving DecidableEq, Repr

def Fault.message : Fault → String
  | .invalid length index => s!"invalid utf-8 sequence of {length} bytes from index {index}"
  | .incomplete index => s!"incomplete utf-8 byte sequence from index {index}"

/-- The least and greatest value that a byte may have. -/
structure Range where
  low : Nat
  high : Nat

def Range.has (r : Range) (b : Nat) : Bool := r.low ≤ b && b ≤ r.high

/-- A byte that continues a character. -/
def tail : Range := ⟨0x80, 0xBF⟩

/-- The high bits that a lead byte carries, and the bytes still owed after it. -/
def lead? (b : Nat) : Option (Nat × List Range) :=
  if b ≤ 0x7F then some (b, [])
  else if b < 0xC2 then none
  else if b ≤ 0xDF then some (b - 0xC0, [tail])
  else if b = 0xE0 then some (0, [⟨0xA0, 0xBF⟩, tail])
  else if b = 0xED then some (0xD, [⟨0x80, 0x9F⟩, tail])
  else if b ≤ 0xEF then some (b - 0xE0, [tail, tail])
  else if b = 0xF0 then some (0, [⟨0x90, 0xBF⟩, tail, tail])
  else if b ≤ 0xF3 then some (b - 0xF0, [tail, tail, tail])
  else if b = 0xF4 then some (4, [⟨0x80, 0x8F⟩, tail, tail])
  else none

/-- Reads the owed bytes, six bits each. `start` is where the character starts and
    `good` how many of its bytes were read. -/
def finish (start good bits : Nat) : List Range → List UInt8 → Except Fault (Nat × List UInt8)
  | [], bytes => .ok (bits, bytes)
  | _ :: _, [] => .error (.incomplete start)
  | r :: owed, b :: bytes =>
    if r.has b.toNat then finish start (good + 1) (bits * 64 + (b.toNat - 0x80)) owed bytes
    else .error (.invalid good start)

theorem finish_length {start good bits : Nat} {owed : List Range} {bytes : List UInt8} {code : Nat}
    {rest : List UInt8} (h : finish start good bits owed bytes = .ok (code, rest)) : rest.length ≤ bytes.length := by
  induction owed generalizing good bits bytes with
  | nil => cases h; exact Nat.le_refl _
  | cons r owed ih =>
    cases bytes with
    | nil => cases h
    | cons b bytes =>
      simp only [finish] at h
      split at h
      · exact Nat.le_succ_of_le (ih h)
      · cases h

/-- Reads on from `index`, with the characters before it in `read`, last one first. -/
def decodeFrom (index : Nat) (read : List Char) (bytes : List UInt8) : Except Fault (List Char) :=
  match bytes with
  | [] => .ok read.reverse
  | b :: bytes =>
    match lead? b.toNat with
    | none => .error (.invalid 1 index)
    | some (bits, owed) =>
      match h : finish index 1 bits owed bytes with
      | .error f => .error f
      | .ok (code, rest) => decodeFrom (index + 1 + owed.length) (Char.ofNat code :: read) rest
termination_by bytes.length
decreasing_by simp only [List.length_cons]; exact Nat.lt_succ_of_le (finish_length h)

/-- The characters that the bytes encode. -/
def decode (bytes : List UInt8) : Except Fault (List Char) := decodeFrom 0 [] bytes

end ScriptLang.Utf8
