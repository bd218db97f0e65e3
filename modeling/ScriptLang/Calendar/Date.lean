/-
  ScriptLang.Calendar.Date — days of the Gregorian calendar, carried back before its start.

  A date is a day that exists: the proof is a field. `ofChars?` reads `dd/MM/yyyy`, ten
  characters and no other shape; `dayFirst` writes that form and `iso` writes `yyyy-MM-dd`.
  A year outside 0 to 9999 is written with its sign.
-/

namespace ScriptLang

namespace Date

def isLeap (year : Int) : Bool := year % 4 == 0 && (year % 100 != 0 || year % 400 == 0)

/-- The length of a month; 0 for a number that is no month. -/
def daysIn (year : Int) : Nat → Nat
  | 1 | 3 | 5 | 7 | 8 | 10 | 12 => 31
  | 4 | 6 | 9 | 11 => 30
  | 2 => if isLeap year then 29 else 28
  | _ => 0

end Date

structure Date where
  year : Int
  month : Nat
  day : Nat
  exists_day : 1 ≤ day ∧ day ≤ Date.daysIn year month
  deriving DecidableEq

namespace Date

def ofYearMonthDay? (year : Int) (month day : Nat) : Option Date :=
  if h : 1 ≤ day ∧ day ≤ daysIn year month then some ⟨year, month, day, h⟩ else none

/-! ## Reading -/

def number (digits : List Char) : Nat := Nat.ofDigitChars 10 digits 0

/-- The date that a text of the form `dd/MM/yyyy` names. -/
def ofChars? : List Char → Option Date
  | [d₁, d₂, '/', m₁, m₂, '/', y₁, y₂, y₃, y₄] =>
    if [d₁, d₂, m₁, m₂, y₁, y₂, y₃, y₄].all Char.isDigit then
      ofYearMonthDay? (number [y₁, y₂, y₃, y₄]) (number [m₁, m₂]) (number [d₁, d₂])
    else none
  | _ => none

/-! ## Writing -/

/-- A number in at least `width` digits. -/
def padded (width n : Nat) : List Char := (Nat.toDigits 10 n).leftpad width '0'

/-- Four digits or more, after a sign unless the year is one of 0 to 9999. -/
def yearChars (year : Int) : List Char :=
  let digits := padded 4 year.natAbs
  if year < 0 then '-' :: digits else if 9999 < year then '+' :: digits else digits

def dayFirst (d : Date) : List Char := padded 2 d.day ++ '/' :: padded 2 d.month ++ '/' :: yearChars d.year

def iso (d : Date) : List Char := yearChars d.year ++ '-' :: padded 2 d.month ++ '-' :: padded 2 d.day

end Date

end ScriptLang
