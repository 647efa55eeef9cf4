/-
  Decimal numbers of bounded precision.

  A decimal is a sign, a natural mantissa below `limit`, which is 2 to the 96th, and a scale of at
  most 28; its value is the mantissa over the power of ten that the scale names.  Several decimals
  have one value (`1.5` and `1.50`, `0` and `-0`): they differ as data and in their text, and
  `compare` looks through the difference.

  The bounds on mantissa and scale are fields of the structure, so every function that makes a
  decimal proves them, and no operation has a check for them.  Comparison is exact: two decimals are
  brought over one denominator as integers.

  The bounds on mantissa and scale are fields of the structure, so every function that makes a
  decimal proves them, and none that takes one checks them.  Comparison is exact: two decimals are
  brought over one denominator as integers.
-/
import BlockQuery.Rounding

namespace BlockQuery

/-- Every mantissa is below this bound. -/
abbrev Decimal.limit : Nat := 79228162514264337593543950336

/-- The greatest scale. -/
abbrev Decimal.maxScale : Nat := 28

/-- A signed number `mantissa / tenTo scale`. -/
structure Decimal where
  negative : Bool
  mantissa : Nat
  scale : Nat
  mantissa_lt : mantissa < Decimal.limit
  scale_le : scale ≤ Decimal.maxScale
deriving DecidableEq, Repr

namespace Decimal

/-- The number `0`, with no sign and no fraction. -/
def zero : Decimal := ⟨false, 0, 0, by decide, Nat.zero_le _⟩

instance : Inhabited Decimal := ⟨zero⟩

/-- A natural number as a decimal; one beyond the range becomes the greatest decimal. -/
def ofNat (n : Nat) : Decimal :=
  ⟨false, min n (limit - 1), 0, by simp only [limit]; omega, Nat.zero_le _⟩

/-- An integer as a decimal, if it is in range. -/
def ofInt? (i : Int) : Option Decimal :=
  if h : i.natAbs < limit then some ⟨i < 0, i.natAbs, 0, h, Nat.zero_le _⟩ else none

/-- The same digits with the other sign. -/
def neg (d : Decimal) : Decimal :=
  { d with negative := !d.negative }

/-- The mantissa with the sign. -/
def signed (d : Decimal) : Int :=
  if d.negative then -(d.mantissa : Int) else d.mantissa

/-- Whether the value is zero, with whatever sign and scale. -/
def isZero (d : Decimal) : Bool :=
  d.mantissa == 0

/-- Whether the fraction is zero. -/
def isInteger (d : Decimal) : Bool :=
  d.mantissa % tenTo d.scale == 0

/-- The value cut off at the decimal point, without the sign. -/
def wholePart (d : Decimal) : Nat :=
  d.mantissa / tenTo d.scale

/-- The order by value. -/
def compare (a b : Decimal) : Ordering :=
  Ord.compare (a.signed * tenTo b.scale) (b.signed * tenTo a.scale)

/-- Whether two decimals have one value. -/
def sameValue (a b : Decimal) : Bool :=
  a.signed * tenTo b.scale == b.signed * tenTo a.scale

end Decimal

end BlockQuery
