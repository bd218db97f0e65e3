/-
  ScriptLang.Number.Decimal — decimals, and reading numbers.

  A decimal is `digits · 10^exponent`. `Decimal.ofChars?` reads an unsigned decimal: digits
  with an optional point among or beside them, at least one digit, and an optional exponent.
  `Numeral.integer?` reads a signed 64-bit integer and nothing beyond; `Numeral.double?`
  reads a signed decimal as the nearest double, and the words for infinity and for what is
  no number, in any case of letters. All digits are ASCII.
-/

import ScriptLang.Number.Double

namespace ScriptLang

structure Decimal where
  digits : Nat
  exponent : Int
  deriving DecidableEq

namespace Decimal

/-- The nearest double, with the given sign. -/
def toDouble (negative : Bool) (d : Decimal) : Double :=
  if 0 ≤ d.exponent then .ofRatio negative (d.digits * Nat.pow 10 d.exponent.toNat) 1
  else .ofRatio negative d.digits (Nat.pow 10 (-d.exponent).toNat)

/-- The number that a run of at least one digit writes. -/
def digits? (cs : List Char) : Option Nat :=
  if cs ≠ [] ∧ cs.all Char.isDigit then some (Nat.ofDigitChars 10 cs 0) else none

/-- A sign, which may be left out, and what follows it. -/
def splitSign : List Char → Bool × List Char
  | '-' :: cs => (true, cs)
  | '+' :: cs => (false, cs)
  | cs => (false, cs)

/-- The exponent that ends a decimal; 0 where nothing is left. -/
def exponent? : List Char → Option Int
  | [] => some 0
  | c :: cs =>
    if c = 'e' ∨ c = 'E' then
      let (negative, cs) := splitSign cs
      (digits? cs).map fun n => if negative then -(n : Int) else n
    else none

/-- The digits after a point, and what follows them. -/
def splitFraction : List Char → List Char × List Char
  | '.' :: cs => (cs.takeWhile Char.isDigit, cs.dropWhile Char.isDigit)
  | cs => ([], cs)

/-- An exponent cut back to where it still makes no difference: with `n` digits written, an
    exponent beyond `n + 400` on either side means a number that rounds to infinity or to 0. -/
def cutExponent (n : Nat) (e : Int) : Int := max (-(n + 400 : Int)) (min e (n + 400))

def ofChars? (cs : List Char) : Option Decimal :=
  let whole := cs.takeWhile Char.isDigit
  let (fraction, rest) := splitFraction (cs.dropWhile Char.isDigit)
  let written := whole ++ fraction
  if written = [] then none
  else (exponent? rest).map fun e =>
    ⟨Nat.ofDigitChars 10 written 0, cutExponent written.length e - fraction.length⟩

end Decimal

namespace Numeral

/-- A signed integer of 64 bits. -/
def integer? (cs : List Char) : Option Int64 := do
  let (negative, cs) := Decimal.splitSign cs
  let n ← Decimal.digits? cs
  let i : Int := if negative then -(n : Int) else n
  if Int64.minValue.toInt ≤ i ∧ i ≤ Int64.maxValue.toInt then some (Int64.ofInt i) else none

def infinityWords : List (List Char) := ["inf".toList, "infinity".toList]

def nanWord : List Char := "nan".toList

def double? (cs : List Char) : Option Double :=
  let (negative, cs) := Decimal.splitSign cs
  let word := cs.map Char.toLower
  if word ∈ infinityWords then some (.infinity negative)
  else if word = nanWord then some (.nan negative)
  else (Decimal.ofChars? cs).map (Decimal.toDouble negative)

end Numeral

end ScriptLang
