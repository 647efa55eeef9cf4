/-
  Binary floating point of 64 bits, as far as JSON numbers need it: finite values without a sign.

  A value is a natural number of units, each `2 ^ -1074`, which is the least positive value.  So
  every operation is exact arithmetic on natural numbers followed by one rounding to 53 significant
  bits (`ofRatio?`; none is an overflow to infinity).  `shortest` is the shortest decimal that reads
  back as the value, the nearest one of that length.

  A grid of units this fine turns the three ranges of the format into one: a subnormal number is one
  whose rounding step is a single unit, and no exponent is kept.

  On a grid of units this fine no exponent is kept, and subnormal numbers need no case of their own:
  their rounding step is a single unit.
-/
import BlockQuery.Rounding

namespace BlockQuery

/-- The value `units / 2 ^ 1074`. -/
structure Binary64 where
  units : Nat
deriving DecidableEq, Repr

namespace Binary64

/-- The number of units in 1. -/
def one : Nat := Nat.pow 2 1074

/-- The number of units that is out of range. -/
def limit : Nat := Nat.pow 2 1024 * one

/-- Whether the value is zero. -/
def isZero (x : Binary64) : Bool :=
  x.units == 0

/-- The value nearest to `num / den`, ties to even. -/
def ofRatio? (num den : Nat) : Option Binary64 :=
  let bits := Nat.log2 (num * one / den) + 1
  let step := Nat.pow 2 (bits - 53)
  let units := roundHalfEven (num * one) (den * step) * step
  if units < limit then some ⟨units⟩ else none

/-- The product, rounded; none when it is out of range. -/
def mul? (x y : Binary64) : Option Binary64 :=
  ofRatio? (x.units * y.units) (one * one)

/-- The quotient, rounded; none when it is out of range. -/
def div? (x y : Binary64) : Option Binary64 :=
  ofRatio? x.units y.units

/-! ## Powers of ten

  Scaling multiplies or divides by the rounded power, so a literal with an exponent may be rounded
  several times: its digits, the power, and what they make together. -/

/-- The greatest power of ten in range has this exponent. -/
def maxTen : Nat := 308

/-- The value nearest to a power of ten. -/
def ten? (k : Nat) : Option Binary64 :=
  ofRatio? (tenTo k) 1

/-- The product with a power of ten, rounded. -/
def scaleUp? (x : Binary64) (k : Nat) : Option Binary64 :=
  if k ≤ maxTen then (ten? k).bind x.mul?
  else if x.isZero then some x
  else none

/-- Divides `n` times by the greatest power of ten; zero stays as it is. -/
def divideByMaxTen? (x : Binary64) : Nat → Option Binary64
  | 0 => some x
  | n + 1 =>
      if x.isZero then some x
      else ((ten? maxTen).bind x.div?).bind fun y => divideByMaxTen? y n

/-- The quotient by a power of ten.  A divisor out of range is taken in parts, and each division is
    rounded. -/
def scaleDown? (x : Binary64) (k : Nat) : Option Binary64 :=
  let parts := (k - 1) / maxTen
  (divideByMaxTen? x parts).bind fun y => (ten? (k - parts * maxTen)).bind y.div?

/-- The value of `m * 10 ^ e` as it comes out when `m` and the power of ten are rounded before they
    meet. -/
def ofParts? (m : Nat) (e : Int) : Option Binary64 :=
  (ofRatio? m 1).bind fun x =>
    if 0 ≤ e then x.scaleUp? e.toNat else x.scaleDown? (-e).toNat

/-! ## The shortest decimal

  Of each number of digits the two decimals around the value are tried, the nearer one first.  The
  search stops at the first number of digits where one of them reads back. -/

/-- The ratio that `m * 10 ^ e` is. -/
def decimalRatio (m : Nat) (e : Int) : Nat × Nat :=
  if 0 ≤ e then (m * tenTo e.toNat, 1) else (m, tenTo (-e).toNat)

/-- Whether `m * 10 ^ e` rounds to the value. -/
def readsAs (x : Binary64) (m : Nat) (e : Int) : Bool :=
  let r := decimalRatio m e
  ofRatio? r.1 r.2 == some x

/-- The number of digits before the decimal point of a positive value; it is negative or zero when
    the value starts with that many zeros behind the point. -/
def magnitude (x : Binary64) : Int :=
  ((Nat.toDigits 10 (x.units * tenTo 330 / one)).length : Int) - 330

/-- The decimal of `n` digits that reads back, nearest first, as a mantissa and a power of ten. -/
def digitsOfLength? (x : Binary64) (n : Nat) : Option (Nat × Int) :=
  let e := x.magnitude - n
  let unit := decimalRatio 1 e
  let num := x.units * unit.2
  let den := one * unit.1
  let below := num / den
  let nearest := roundHalfEven num den
  let other := if nearest = below then below + 1 else below
  if x.readsAs nearest e then some (nearest, e)
  else if x.readsAs other e then some (other, e)
  else none

/-- The shortest decimal that reads back, which never needs more than 17 digits. -/
def shortest (x : Binary64) : Nat × Int :=
  ((List.range 17).findSome? fun n => x.digitsOfLength? (n + 1)).getD (0, 0)

end Binary64

end BlockQuery
