/-
  ScriptLang.Tree.Literal — constants that stand in a program.

  `ofNumber?` and `ofDate?` read the text of a number token and of a date token. A number is
  an integer if it is one of 64 bits, otherwise the nearest double. `source` writes a
  literal as it stands in a program.
  - A string is put in double quotes unless it has one, then in single quotes.
  - A whole double below 2^63 is written out in full before `.0`, so that it reads back as
    a double; every other double has the fewest digits that read back, of two equally near
    the greater, and never an exponent.
-/

import ScriptLang.Calendar.Date
import ScriptLang.Number.Shortest

namespace ScriptLang

inductive Literal where
  | empty
  | boolean (value : Bool)
  /-- A string, without the quotes around it. -/
  | string (value : String)
  | integer (value : Int64)
  | double (value : Double)
  | date (value : Date)
  deriving DecidableEq

/-! ## Doubles -/

namespace Double

/-- A point and the digits after it; nothing where there are none. -/
def pointed (parts : List Char × List Char) : List Char :=
  if parts.2 = [] then parts.1 else parts.1 ++ '.' :: parts.2

/-- A finite double without its sign. -/
def sourceMagnitude (x : Double) : List Char :=
  if x.units % one = 0 ∧ x.units / one < 1 <<< 63 then Nat.toDigits 10 (x.units / one) ++ ".0".toList
  else
    let (digits, point) := (x.shortest .up).significant
    pointed (Decimal.positional digits point)

def source (x : Double) : List Char :=
  if x.isNaN then "NaN".toList
  else (if x.negative then ['-'] else []) ++ (if x.isFinite then x.sourceMagnitude else "inf".toList)

end Double

namespace Literal

def integerSource (n : Int64) : List Char :=
  (if n.toInt < 0 then ['-'] else []) ++ Nat.toDigits 10 n.toInt.natAbs

/-- A string between quotes of the sort that it does not have. -/
def quoted (value : List Char) : List Char :=
  if '"' ∈ value then '\'' :: value ++ ['\''] else '"' :: value ++ ['"']

def source : Literal → List Char
  | empty => "empty".toList
  | boolean true => "true".toList
  | boolean false => "false".toList
  | string value => quoted value.toList
  | integer value => integerSource value
  | double value => value.source
  | date value => value.dayFirst

def ofNumber? (text : String) : Option Literal :=
  match Numeral.integer? text.toList with
  | some n => some (integer n)
  | none => (Numeral.double? text.toList).map double

def ofDate? (text : String) : Option Literal := (Date.ofChars? text.toList).map date

end Literal

end ScriptLang
