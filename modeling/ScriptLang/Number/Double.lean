/-
  ScriptLang.Number.Double — IEEE 754 binary64 numbers, and rounding to them.

  A double is a sign and a magnitude: the exponent and fraction fields of its encoding read
  as one number, so that a greater magnitude is a greater absolute value. A finite double
  is `units · 2^-1074`, where `units = significand · 2^scale`. `ofRatio` gives the double
  nearest to a quotient; of two that are equally near, the one with an even magnitude; what
  lies half a unit or more past the greatest finite double becomes infinite.
  - `significand_lt`: a significand has at most 53 bits.
  - `nearest_lt`: the rounded magnitude fits the encoding.
-/

namespace ScriptLang

structure Double where
  negative : Bool
  magnitude : Nat
  magnitude_lt : magnitude < 1 <<< 63
  deriving DecidableEq

namespace Double

/-- The magnitude of an infinite double; greater magnitudes are no numbers. -/
def infinite : Nat := 2047 <<< 52

def infinity (negative : Bool) : Double := ⟨negative, infinite, by decide⟩

def nan (negative : Bool) : Double := ⟨negative, infinite + (1 <<< 51), by decide⟩

/-- The double with the given 64 bits. -/
def ofBits (bits : Nat) : Double := ⟨bits.testBit 63, bits % (1 <<< 63), Nat.mod_lt _ (by decide)⟩

def isFinite (x : Double) : Bool := x.magnitude < infinite

def isNaN (x : Double) : Bool := infinite < x.magnitude

/-! ## The value of a finite double -/

/-- The exponent of two in `units`: 0 below the second binade, then one more for each. -/
def scale (x : Double) : Nat := (x.magnitude >>> 52) - 1

def significand (x : Double) : Nat := x.magnitude - (x.scale <<< 52)

/-- The absolute value, in units of `2^-1074`. -/
def units (x : Double) : Nat := x.significand <<< x.scale

/-- The number of units in one. -/
def one : Nat := 1 <<< 1074

theorem significand_lt (x : Double) : x.significand < 1 <<< 53 := by
  unfold significand scale
  omega

/-! ## Rounding -/

/-- The integer nearest to `num / den`; of two, the even one. -/
def divideToEven (num den : Nat) : Nat :=
  let q := num / den
  let r := num % den
  if 2 * r < den then q else if den < 2 * r then q + 1 else q + q % 2

/-- The magnitude of the double nearest to `num / den`. -/
def nearest (num den : Nat) : Nat :=
  let scale := (num * one / den).log2 - 52
  min ((scale <<< 52) + divideToEven (num * one) (den <<< scale)) infinite

theorem nearest_lt (num den : Nat) : nearest num den < 1 <<< 63 :=
  Nat.lt_of_le_of_lt (Nat.min_le_right _ _) (by decide)

/-- The double nearest to `num / den`, with the given sign. -/
def ofRatio (negative : Bool) (num den : Nat) : Double := ⟨negative, nearest num den, nearest_lt num den⟩

end Double

end ScriptLang
