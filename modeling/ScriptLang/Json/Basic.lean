/-
  ScriptLang.Json.Basic — JSON values and their text.

  `pretty` sets each member on a line of its own, two spaces further in; an empty array or
  object is a pair of brackets. `compact` writes no blanks. A string escapes quotes,
  backslashes and the control characters below U+0020, by a letter where there is one and
  by four lower-case hexadecimal digits otherwise; all else is written as it is.
  A double has the fewest digits that read back, of two equally near the one whose last
  digit is even; it is positional from 0.00001 up to below 10^16, always with a fraction,
  and has an exponent with its sign beyond; a double that is no finite number is null.
-/

import ScriptLang.Number.Shortest

namespace ScriptLang

inductive Json where
  | null
  | bool (value : Bool)
  | integer (value : Int)
  | double (value : Double)
  | string (value : String)
  | array (items : List Json)
  | object (fields : List (String × Json))

namespace Json

/-! ## Leaves -/

def integerChars (n : Int) : List Char := (if n < 0 then ['-'] else []) ++ Nat.toDigits 10 n.natAbs

/-- A finite positive double without its sign. -/
def magnitudeChars (x : Double) : List Char :=
  let (digits, point) := (x.shortest .even).significant
  let exponent := point - 1
  if -5 ≤ exponent ∧ exponent < 16 then
    let (whole, fraction) := Decimal.positional digits point
    whole ++ '.' :: (if fraction = [] then ['0'] else fraction)
  else
    let mantissa := match digits with
      | [] => []
      | [d] => [d]
      | d :: ds => d :: '.' :: ds
    mantissa ++ 'e' :: (if exponent < 0 then '-' else '+') :: Nat.toDigits 10 exponent.natAbs

def doubleChars (x : Double) : List Char :=
  if x.isFinite then
    (if x.negative then ['-'] else []) ++ (if x.units = 0 then "0.0".toList else magnitudeChars x)
  else "null".toList

/-- A number below 65536 as four hexadecimal digits. -/
def hex4 (n : Nat) : List Char := (Nat.toDigits 16 n).leftpad 4 '0'

def escape (c : Char) : List Char :=
  if c = '"' then ['\\', '"']
  else if c = '\\' then ['\\', '\\']
  else if c = '\n' then ['\\', 'n']
  else if c = '\r' then ['\\', 'r']
  else if c = '\t' then ['\\', 't']
  else if c.toNat = 8 then ['\\', 'b']
  else if c.toNat = 12 then ['\\', 'f']
  else if c.toNat < 32 then '\\' :: 'u' :: hex4 c.toNat
  else [c]

def stringChars (value : String) : List Char := '"' :: value.toList.flatMap escape ++ ['"']

/-! ## Values -/

def indent (depth : Nat) : List Char := List.replicate (2 * depth) ' '

/-- Members between brackets, one a line. -/
def enclosed (opening closing : Char) (depth : Nat) (members : List (List Char)) : List Char :=
  match members with
  | [] => [opening, closing]
  | _ =>
    let lines := members.map fun text => '\n' :: indent (depth + 1) ++ text
    opening :: [','].intercalate lines ++ '\n' :: indent depth ++ [closing]

mutual

def prettyAt (depth : Nat) : Json → List Char
  | .null => "null".toList
  | .bool value => (if value then "true" else "false").toList
  | .integer value => integerChars value
  | .double value => doubleChars value
  | .string value => stringChars value
  | .array items => enclosed '[' ']' depth (prettyItems (depth + 1) items)
  | .object fields => enclosed '{' '}' depth (prettyFields (depth + 1) fields)

def prettyItems (depth : Nat) : List Json → List (List Char)
  | [] => []
  | item :: items => prettyAt depth item :: prettyItems depth items

def prettyFields (depth : Nat) : List (String × Json) → List (List Char)
  | [] => []
  | (key, value) :: fields =>
    (stringChars key ++ ": ".toList ++ prettyAt depth value) :: prettyFields depth fields

end

def pretty (j : Json) : List Char := prettyAt 0 j

mutual

def compact : Json → List Char
  | .null => "null".toList
  | .bool value => (if value then "true" else "false").toList
  | .integer value => integerChars value
  | .double value => doubleChars value
  | .string value => stringChars value
  | .array items => '[' :: [','].intercalate (compactItems items) ++ [']']
  | .object fields => '{' :: [','].intercalate (compactFields fields) ++ ['}']

def compactItems : List Json → List (List Char)
  | [] => []
  | item :: items => compact item :: compactItems items

def compactFields : List (String × Json) → List (List Char)
  | [] => []
  | (key, value) :: fields => (stringChars key ++ ':' :: compact value) :: compactFields fields

end

end Json

end ScriptLang
