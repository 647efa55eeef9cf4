/-
  Arithmetic on decimals.

  Every operation has an exact rational result.  It is rounded, halves to the even neighbour, at
  the greatest scale at which its mantissa is below the limit (`ofRatio?`; none means overflow),
  and then trailing zeros of the fraction are dropped (`normalize`).  Two numbers of scale 0
  divide as integers: the rounded quotient is cut off at the point instead.
-/
import BlockQuery.Decimal.Basic

namespace BlockQuery.Decimal

/-! ## Rounding

  The search goes from the greatest scale down.  At each scale the ratio is rounded afresh from its
  exact value, so nothing is rounded twice. -/

/-- The ratio `num / den` rounded at the greatest scale up to `s` at which the mantissa fits. -/
def ofRatioUpTo? (negative : Bool) (num den : Nat) : (s : Nat) → s ≤ maxScale → Option Decimal
  | 0, hs =>
      if h : roundHalfEven num den < limit then
        some ⟨negative, roundHalfEven num den, 0, h, hs⟩
      else none
  | s + 1, hs =>
      if h : roundHalfEven (num * tenTo (s + 1)) den < limit then
        some ⟨negative, roundHalfEven (num * tenTo (s + 1)) den, s + 1, h, hs⟩
      else ofRatioUpTo? negative num den s (by omega)

/-- The ratio `± num / den` at the best precision, or none when it is out of range. -/
def ofRatio? (negative : Bool) (num den : Nat) : Option Decimal :=
  ofRatioUpTo? negative num den maxScale (Nat.le_refl _)

/-- The decimal `m / tenTo s` with the trailing zeros of its fraction dropped. -/
def stripped (negative : Bool) :
    (s m : Nat) → m < limit → s ≤ maxScale → Decimal
  | 0, m, hm, hs => ⟨negative, m, 0, hm, hs⟩
  | s + 1, m, hm, hs =>
      if m % 10 = 0 then stripped negative s (m / 10) (by omega) (by omega)
      else ⟨negative, m, s + 1, hm, hs⟩

/-- The same value without trailing zeros; every zero becomes `0`. -/
def normalize (d : Decimal) : Decimal :=
  if d.isZero then zero else stripped d.negative d.scale d.mantissa d.mantissa_lt d.scale_le

/-- Cuts off the fraction.  The sign stays, also on a zero that is left, unless the number was
    zero before. -/
def truncate (d : Decimal) : Decimal :=
  ⟨d.negative && !d.isZero, d.wholePart, 0,
    Nat.lt_of_le_of_lt (Nat.div_le_self _ _) d.mantissa_lt, Nat.zero_le _⟩

/-! ## The four operations

  Addition, subtraction and multiplication share `ofSigned?`: their exact result is an integer over
  a power of ten.  Division has a denominator of its own. -/

/-- The integer `n` over `den`, rounded and normalized. -/
def ofSigned? (n : Int) (den : Nat) : Option Decimal :=
  (ofRatio? (n < 0) n.natAbs den).map normalize

/-- The sum, rounded; none when it is out of range. -/
def add? (a b : Decimal) : Option Decimal :=
  ofSigned? (a.signed * tenTo b.scale + b.signed * tenTo a.scale) (tenTo (a.scale + b.scale))

/-- The difference, rounded; none when it is out of range. -/
def sub? (a b : Decimal) : Option Decimal :=
  ofSigned? (a.signed * tenTo b.scale - b.signed * tenTo a.scale) (tenTo (a.scale + b.scale))

/-- The product, rounded; none when it is out of range. -/
def mul? (a b : Decimal) : Option Decimal :=
  ofSigned? (a.signed * b.signed) (tenTo (a.scale + b.scale))

/-- The quotient by a number that is not zero; integers divide as integers. -/
def div? (a b : Decimal) : Option Decimal :=
  let quotient :=
    ofRatio? (a.negative != b.negative) (a.mantissa * tenTo b.scale) (b.mantissa * tenTo a.scale)
  if a.scale = 0 ∧ b.scale = 0 then quotient.map truncate else quotient.map normalize

end BlockQuery.Decimal
