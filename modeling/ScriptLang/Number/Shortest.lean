/-
  ScriptLang.Number.Shortest — the fewest digits that read back as a double.

  For n = 1, 2, … the two decimals of n digits on either side of the double are read; the
  first n at which one of them reads back wins, of two the nearer, and of two equally near
  the one that the tie rule names. Seventeen digits are enough for every double; the exact
  expansion stands last, so that some decimal always comes out.
  - `shortest` is what the search gives; `significant` drops its trailing zeros.
  - `positional` writes digits around a point, with zeros where digits are missing.
-/

import ScriptLang.Number.Decimal

namespace ScriptLang

/-- Which of two equally near decimals is chosen. -/
inductive Tie where
  /-- The one whose last digit is even. -/
  | even
  /-- The greater one. -/
  | up
  deriving DecidableEq

namespace Double

def digitCount (n : Nat) : Nat := (Nat.toDigits 10 n).length

/-- The number of digits before the decimal point of a positive double; below 1 it counts,
    as a negative number, the zeros after the point. -/
def pointPlace (x : Double) : Int :=
  if one ≤ x.units then digitCount (x.units / one) else 1 - (digitCount (one / x.units) : Int)

/-- The decimal with `n` digits that reads back as `x` and is nearest to it. -/
def withDigits? (tie : Tie) (x : Double) (n : Nat) : Option Decimal :=
  let exponent := x.pointPlace - n
  let num := x.units * Nat.pow 10 (-exponent).toNat
  let den := one * Nat.pow 10 exponent.toNat
  let lower : Decimal := ⟨num / den, exponent⟩
  let upper : Decimal := ⟨num / den + 1, exponent⟩
  let gap := 2 * (num % den)
  let lowerReads := lower.toDouble x.negative = x
  let upperReads := upper.toDouble x.negative = x
  if lowerReads ∧ upperReads then
    if gap < den then some lower
    else if den < gap then some upper
    else match tie with
      | .up => some upper
      | .even => some (if lower.digits % 2 = 0 then lower else upper)
  else if lowerReads then some lower
  else if upperReads then some upper
  else none

/-- Every digit of a finite double: one unit is `5^1074 · 10^-1074`. -/
def exact (x : Double) : Decimal := ⟨x.units * Nat.pow 5 1074, -1074⟩

/-- A decimal that reads back as `x`, with the fewest digits. -/
def shortest (tie : Tie) (x : Double) : Decimal :=
  ((List.range' 1 17).findSome? (x.withDigits? tie)).getD x.exact

end Double

namespace Decimal

/-- The digits without trailing zeros, and how many of them stand before the point. -/
def significant (d : Decimal) : List Char × Int :=
  let digits := Nat.toDigits 10 d.digits
  ((digits.reverse.dropWhile (· == '0')).reverse, digits.length + d.exponent)

/-- The digits before and after the point, when `point` of the given digits stand before it. -/
def positional (digits : List Char) (point : Int) : List Char × List Char :=
  if point ≤ 0 then (['0'], List.replicate (-point).toNat '0' ++ digits)
  else
    let n := point.toNat
    (digits.take n ++ List.replicate (n - digits.length) '0', digits.drop n)

end Decimal

end ScriptLang
